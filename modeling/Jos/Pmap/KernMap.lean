/-
The kernel address space: the three boot_map_region calls of mem_init, and check_kern_pgdir.

The second call passes KSTKSIZE, a number of bytes, where boot_map_region counts pages: it maps 128MB from
KSTACKTOP-KSTKSIZE on, also over KERNBASE, and the third call overwrites what lies there. The three calls touch the 66
directory entries of `kernTables`. Results:
- `memInitMap_run`: 66 free pages are enough for the three calls;
- `kernel_xlat`: the translation behind them;
- `checkKernPgdir_passes`: check_kern_pgdir passes on it;
- `kernel_address_space`: from an empty directory the translation is `kernelMap`, at every address.
-/
import Jos.Pmap.Region

namespace Jos

open Jos.Lib

/-- mem_init, the three calls of boot_map_region -/
def memInitMap (bootstack : Word) : K Unit := do
  bootMapRegion (← get).kernPgdir upages (roundup ((← get).npages * sizeofPageInfo) pgsize / pgsize)
    (← paddr (← get).pagesVa) (pteU ||| pteP)
  bootMapRegion (← get).kernPgdir (kstacktop - kstksize) kstksize (← paddr bootstack) (pteW ||| pteP)
  bootMapRegion (← get).kernPgdir kernbase (0x10000000 / pgsize) 0 (pteW ||| pteP)

/-! ## check_kern_pgdir -/

/-- `for (i = 0; i < n; i += PGSIZE)` -/
def forPages (n : Word) (body : Word → K Unit) : ℕ → Word → K Unit
  | 0, _ => throw .diverge
  | fuel + 1, i => do
    if i < n then
      body i
      forPages n body fuel (i + pgsize)

/-- the assertions about directory entry i -/
def checkPde (i : ℕ) (pde : Word) : K Unit :=
  if i = pdx uvpt ∨ i = pdx (kstacktop - 1) ∨ i = pdx upages then
    kassert "pgdir[i] & PTE_P" (present pde)
  else if pdx kernbase ≤ i then do
    kassert "pgdir[i] & PTE_P" (present pde)
    kassert "pgdir[i] & PTE_W" (pde &&& pteW ≠ 0#32)
  else
    kassert "pgdir[i] == 0" (pde = 0#32)

/-- the first n rounds of the loop over the directory -/
def checkPdes (pgdir : Word) : ℕ → K Unit
  | 0 => return ()
  | i + 1 => do
    checkPdes pgdir i
    checkPde i (← ldw ⟨frameOf pgdir, i⟩)

def checkKernPgdir (bootstack : Word) : K Unit := do
  let pgdir := (← get).kernPgdir
  let n := roundup ((← get).npages * sizeofPageInfo) pgsize
  forPages n (fun i => do
    kassert "check_va2pa(pgdir, UPAGES + i) == PADDR(pages) + i"
      ((← checkVa2pa pgdir (upages + i)) = (← paddr (← get).pagesVa) + i)) (n.toNat / 4096 + 2) 0#32
  let n := (← get).npages * pgsize
  forPages n (fun i => do
    kassert "check_va2pa(pgdir, KERNBASE + i) == i" ((← checkVa2pa pgdir (kernbase + i)) = i)) (n.toNat / 4096 + 2) 0#32
  forPages kstksize (fun i => do
    kassert "check_va2pa(pgdir, KSTACKTOP - KSTKSIZE + i) == PADDR(bootstack) + i"
      ((← checkVa2pa pgdir (kstacktop - kstksize + i)) = (← paddr bootstack) + i)) (kstksize.toNat / 4096 + 2) 0#32
  kassert "check_va2pa(pgdir, KSTACKTOP - PTSIZE) == ~0" ((← checkVa2pa pgdir (kstacktop - ptsize)) = ~~~0#32)
  checkPdes pgdir npdentries

/-! ## The regions -/

/-- directory entries of the kernel part: UPAGES, the kernel stack, and everything from KERNBASE on -/
def kernTables : Finset ℕ := insert 956 (Finset.Icc 959 1023)

theorem mem_kernTables {d : ℕ} : d ∈ kernTables ↔ d = 956 ∨ 959 ≤ d ∧ d ≤ 1023 := by
  simp [kernTables]

theorem kernTables_card : kernTables.card = 66 := by decide

/-- a page-aligned address in the 4MB that entry_pgdir maps at KERNBASE -/
structure KernAddr (kva : Word) : Prop where
  ge : kernbase ≤ kva
  lt : kva < kernbase + 0x400000#32
  aligned : kva.toNat % 4096 = 0

/-- the pages of the array `pages` -/
def pagesSize (s : St) : Word := roundup (s.npages * sizeofPageInfo) pgsize / pgsize

def pagesRounds (s : St) : List (Word × Word) :=
  regionRounds upages (pagesSize s) (s.pagesVa - kernbase) (pteU ||| pteP)

def stackRounds (bootstack : Word) : List (Word × Word) :=
  regionRounds (kstacktop - kstksize) kstksize (bootstack - kernbase) (pteW ||| pteP)

def physRounds : List (Word × Word) := regionRounds kernbase (0x10000000 / pgsize) 0 (pteW ||| pteP)

def kernRounds (s : St) (bootstack : Word) : List (Word × Word) :=
  pagesRounds s ++ (stackRounds bootstack ++ physRounds)

theorem pgnum_upages : pgnum upages = 978944 := by decide
theorem pgnum_stack : pgnum (kstacktop - kstksize) = 983032 := by decide
theorem pgnum_kernbase : pgnum kernbase = 983040 := by decide
theorem physSize : (0x10000000 / pgsize : Word).toNat = 65536 := by decide
theorem stackSize : kstksize.toNat = 32768 := by decide

section Sizes

variable {s : St} (hn : s.npages.toNat ≤ 65536)
include hn

theorem pages_roundup_toNat :
    (roundup (s.npages * sizeofPageInfo) pgsize).toNat = (s.npages.toNat * 8 + 4095) / 4096 * 4096 := by
  have h8 : (s.npages * sizeofPageInfo).toNat = s.npages.toNat * 8 := by
    rw [BitVec.toNat_mul]
    change s.npages.toNat * 8 % 2 ^ 32 = _
    omega
  rw [roundup_pgsize_toNat (by omega), h8]

theorem pagesSize_toNat : (pagesSize s).toNat = (s.npages.toNat * 8 + 4095) / 4096 := by
  rw [pagesSize, BitVec.toNat_udiv, pages_roundup_toNat hn]
  change _ / 4096 = _
  omega

/-- the rounds stay in the kernel part, and store present entries -/
theorem kernRounds_mem (bootstack : Word) {r : Word × Word} (hr : r ∈ kernRounds s bootstack) :
    pdx r.1 ∈ kernTables ∧ pdx r.1 ≠ 957 ∧ present r.2 := by
  have hsize := pagesSize_toNat hn
  rw [mem_kernTables, pdx_pgnum]
  rw [kernRounds, List.mem_append, List.mem_append] at hr
  rcases hr with hr | hr | hr
  · obtain ⟨h1, h2, h3⟩ := mem_regionRounds (by decide) (by
      have : upages.toNat = 978944 * 4096 := by decide
      omega) hr
    rw [pgnum_upages] at h1 h2
    exact ⟨by omega, by omega, h3⟩
  · obtain ⟨h1, h2, h3⟩ := mem_regionRounds (by decide) (by decide) hr
    rw [pgnum_stack] at h1 h2
    rw [stackSize] at h2
    exact ⟨by omega, by omega, h3⟩
  · obtain ⟨h1, h2, h3⟩ := mem_regionRounds (by decide) (by decide) hr
    rw [pgnum_kernbase] at h1 h2
    rw [physSize] at h2
    exact ⟨by omega, by omega, h3⟩

/-- entry d of the kernel part is the table of some round -/
theorem exists_round (bootstack : Word) (h1 : 1 ≤ s.npages.toNat) {d : ℕ} (hd : d ∈ kernTables) :
    ∃ r ∈ kernRounds s bootstack, d = pdx r.1 := by
  have hsize := pagesSize_toNat hn
  have hpages : upages.toNat + (pagesSize s).toNat * 4096 ≤ 4294967296 := by
    have : upages.toNat = 978944 * 4096 := by decide
    omega
  rw [mem_kernTables] at hd
  by_cases hp : d = 956
  · refine ⟨regionRound upages (s.pagesVa - kernbase) (pteU ||| pteP) 0, List.mem_append_left _ ?_, ?_⟩
    · exact List.mem_map.2 ⟨0, List.mem_range.2 (by omega), rfl⟩
    · rw [pdx_pgnum, pgnum_regionRound (by decide) hpages (by omega), pgnum_upages]
      omega
  · by_cases hs : d = 959
    · refine ⟨regionRound (kstacktop - kstksize) (bootstack - kernbase) (pteW ||| pteP) 0,
        List.mem_append_right _ (List.mem_append_left _ ?_), ?_⟩
      · exact List.mem_map.2 ⟨0, List.mem_range.2 (by decide), rfl⟩
      · have hstack : (kstacktop - kstksize).toNat + kstksize.toNat * 4096 ≤ 4294967296 := by decide
        rw [pdx_pgnum, pgnum_regionRound (by decide) hstack (by decide), pgnum_stack]
        omega
    · refine ⟨regionRound kernbase 0 (pteW ||| pteP) ((d - 960) * 1024),
        List.mem_append_right _ (List.mem_append_right _ ?_), ?_⟩
      · exact List.mem_map.2 ⟨_, List.mem_range.2 (by rw [physSize]; omega), rfl⟩
      · have hphys : kernbase.toNat + (0x10000000 / pgsize : Word).toNat * 4096 ≤ 4294967296 := by decide
        rw [pdx_pgnum, pgnum_regionRound (by decide) hphys (by rw [physSize]; omega), pgnum_kernbase]
        omega

end Sizes

/-! ## The three calls -/

section Calls

variable {s t : St} {l m : List ℕ} {bootstack : Word}

theorem memInitMap_run (h : Tables s l) (hp : kernbase ≤ s.pagesVa) (hb : kernbase ≤ bootstack)
    (hle : absent kernTables s ≤ l.length) :
    ∃ t m, (memInitMap bootstack).run s = .ok ((), t) ∧ Rounds s l (kernRounds s bootstack) t m := by
  have hD : 957 ∉ kernTables := by decide
  have hn := h.npages_le
  have hmem := fun r hr => kernRounds_mem hn bootstack (r := r) hr
  have hsize := pagesSize_toNat hn
  have hup : upages.toNat = 978944 * 4096 := by decide
  obtain ⟨t1, m1, h1, hr1⟩ := bootMapRegion_run upages (pagesSize s) (s.pagesVa - kernbase)
    (pteU ||| pteP) h (by omega) hD (fun r hr => (hmem r (List.mem_append_left _ hr)).1) hle
  obtain ⟨k1, hl1, -, hc1⟩ := hr1.taken h fun r hr =>
    ⟨(hmem r (List.mem_append_left _ hr)).2.1, (hmem r (List.mem_append_left _ hr)).1⟩
  have ht1 := hr1.tables h fun r hr => (hmem r (List.mem_append_left _ hr)).2.1
  have hmem2 := fun r hr => hmem r (List.mem_append_right _ (List.mem_append_left _ hr))
  obtain ⟨t2, m2, h2, hr2⟩ := bootMapRegion_run (kstacktop - kstksize) kstksize
    (bootstack - kernbase) (pteW ||| pteP) ht1 (by decide) hD (fun r hr => (hmem2 r hr).1)
    (by rw [hl1, List.length_append] at hle; omega)
  obtain ⟨k2, hl2, -, hc2⟩ := hr2.taken ht1 fun r hr => ⟨(hmem2 r hr).2.1, (hmem2 r hr).1⟩
  have ht2 := hr2.tables ht1 fun r hr => (hmem2 r hr).2.1
  have hmem3 := fun r hr => hmem r (List.mem_append_right _ (List.mem_append_right _ hr))
  obtain ⟨t3, m3, h3, hr3⟩ := bootMapRegion_run kernbase (0x10000000 / pgsize) 0
    (pteW ||| pteP) ht2 (by decide) hD (fun r hr => (hmem3 r hr).1)
    (by rw [hl1, hl2, List.length_append, List.length_append] at hle; omega)
  refine ⟨t3, m3, ?_, hr1.append (hr2.append hr3)⟩
  rw [memInitMap, Prog.run_bind (run_get s), Prog.run_bind (run_get s), Prog.run_bind (run_get s), Prog.run_bind (run_paddr hp),
    ← pagesSize.eq_def, Prog.run_bind h1, Prog.run_bind (run_get t1), Prog.run_bind (run_paddr hb), Prog.run_bind h2, Prog.run_bind (run_get t2), h3]

/-- the translation behind the three calls: the last one wins -/
theorem kernel_xlat (h : Tables s l) (hr : Rounds s l (kernRounds s bootstack) t m) {n : ℕ} (hn : n < 1048576)
    (hw : n / 1024 ≠ 957) : xlat t.mem t.dir n =
      if 983040 ≤ n then some (entry (0 + BitVec.ofNat 32 (n - 983040) * pgsize) (pteW ||| pteP))
      else if 983032 ≤ n then
        some (entry (bootstack - kernbase + BitVec.ofNat 32 (n - 983032) * pgsize) (pteW ||| pteP))
      else if 978944 ≤ n ∧ n < 978944 + (s.npages.toNat * 8 + 4095) / 4096 then
        some (entry (s.pagesVa - kernbase + BitVec.ofNat 32 (n - 978944) * pgsize) (pteU ||| pteP))
      else xlat s.mem s.dir n := by
  have hnp := h.npages_le
  have hsize := pagesSize_toNat hnp
  have hup : upages.toNat = 978944 * 4096 := by decide
  have hmem := fun r hr => (kernRounds_mem hnp bootstack (r := r) hr).2
  rw [hr.xlat h hmem hn hw, kernRounds, List.map_append, List.map_append, overlay_append, overlay_append, physRounds,
    overlay_region (by decide) (by decide), stackRounds, overlay_region (by decide) (by decide), pagesRounds,
    overlay_region (by decide) (by omega), pgnum_upages, pgnum_stack, pgnum_kernbase, physSize, stackSize, hsize]
  by_cases h1 : 983040 ≤ n
  · rw [if_pos h1, if_pos ⟨h1, by omega⟩]
  · rw [if_neg h1, if_neg fun hc => h1 hc.1]
    by_cases h2 : 983032 ≤ n
    · rw [if_pos h2, if_pos ⟨h2, by omega⟩]
    · rw [if_neg h2, if_neg fun hc => h2 hc.1]

/-- an empty directory has no tables to keep apart -/
theorem emptyTables (hn : s.npages.toNat ≤ 65536) (hl : FreeList s l) (hlt : ∀ p ∈ l, p < s.npages.toNat)
    (hdir : s.dir ∉ l) (hself : s.mem s.dir 957 = selfEntry s)
    (hnone : ∀ d, d < 1024 → d ≠ 957 → tbl s.mem s.dir d = none) : Tables s l := by
  have hno : ∀ d f, d < 1024 → d ≠ 957 → tbl s.mem s.dir d ≠ some f := fun d f hd hw hf => by
    rw [hnone d hd hw] at hf
    cases hf
  refine ⟨hn, hl, hlt, hdir, tbl_self hself, ?_, ?_, ?_, ?_⟩
  · exact fun d f hd hw hf => absurd hf (hno d f hd hw)
  · exact fun d f hd hw hf => absurd hf (hno d f hd hw)
  · exact fun d f hd hw hf => absurd hf (hno d f hd hw)
  · exact fun d d' f hd _ hw _ hf => absurd hf (hno d f hd hw)

/-- the directory behind the three calls, if it was empty but for the self entry -/
theorem kernel_dir (h : Tables s l) (h1 : 1 ≤ s.npages.toNat) (hr : Rounds s l (kernRounds s bootstack) t m)
    (he : ∀ d, d < 1024 → d ≠ 957 → s.mem s.dir d = 0#32) {d : ℕ} (hd : d < 1024) :
    (d ∈ kernTables → ∃ p < s.npages.toNat, t.mem t.dir d = tableEntry p) ∧
      (d = 957 → t.mem t.dir d = s.mem s.dir d) ∧ (d ∉ kernTables → d ≠ 957 → t.mem t.dir d = 0#32) := by
  have hmem := fun r hr => kernRounds_mem h.npages_le bootstack (r := r) hr
  have hw := fun r hr => (hmem r hr).2.1
  refine ⟨?_, ?_, ?_⟩
  · intro hD
    have hp := hr.dir_present h hw (exists_round h.npages_le bootstack h1 hD)
    have hne : d ≠ 957 := fun e => absurd (e ▸ hD) (by decide)
    rcases hr.dir_cases h hw d with hs | ⟨-, hs⟩
    · rw [hs, he d hd hne] at hp
      exact absurd hp not_present_zero
    · exact hs
  · intro hself
    rcases hr.dir_cases h hw d with hs | ⟨⟨r, hrm, e⟩, -⟩
    · exact hs
    · exact absurd (e.symm.trans hself) (hw r hrm)
  · intro hD hself
    rcases hr.dir_cases h hw d with hs | ⟨⟨r, hrm, e⟩, -⟩
    · rw [hs, he d hd hself]
    · exact absurd (e ▸ (hmem r hrm).1) hD

end Calls

/-! ## The address space -/

/-- the page's address with the offset of va, and the permission bits -/
def atOffset (va : Word) (r : Word × Word) : Word × Word := (r.1 + (va &&& 0xFFF#32), r.2)

/-- the physical address and the permission bits that the walk finds at va -/
def translate (s : St) (va : Word) : Option (Word × Word) := (hwWalk s va).map (atOffset va)

/-- the memory map of the kernel part -/
def kernelMap (s : St) (bootstack va : Word) : Option (Word × Word) :=
  if upages ≤ va ∧ va < upages + roundup (s.npages * sizeofPageInfo) pgsize then
    some (s.pagesVa - kernbase + (va - upages), pteU ||| pteP)
  else if kstacktop - kstksize ≤ va ∧ va < kstacktop then
    some (bootstack - kernbase + (va - (kstacktop - kstksize)), pteW ||| pteP)
  else if kernbase ≤ va then some (va - kernbase, pteW ||| pteP)
  else none

/-- an address in a region, from its page and its offset -/
theorem sub_base {base va : Word} (hb : base.toNat % 4096 = 0) (hle : base ≤ va) :
    BitVec.ofNat 32 (pgnum va - pgnum base) * pgsize + (va &&& 0xFFF#32) = va - base := by
  have hva := va.isLt
  have hp : pgsize.toNat = 4096 := rfl
  rw [BitVec.le_def] at hle
  apply BitVec.eq_of_toNat_eq
  rw [BitVec.toNat_sub_of_le hle, BitVec.toNat_add, BitVec.toNat_mul, BitVec.toNat_ofNat, low_toNat, hp, pgnum_eq, pgnum_eq]
  omega

/-- the entry of the page of va, in a region that starts at base -/
theorem translation_region (base perm : Word) {pa va : Word} (hpa : pa.toNat % 4096 = 0) (hb : base.toNat % 4096 = 0)
    (hle : base ≤ va) (hp : perm.toNat < 4096) :
    atOffset va (translation (entry (pa + BitVec.ofNat 32 (pgnum va - pgnum base) * pgsize) perm)) =
      (pa + (va - base), perm ||| pteP) := by
  rw [translation, pteAddr_entry (aligned_add hpa _) hp, low_entry (aligned_add hpa _) hp, atOffset, BitVec.add_assoc,
    sub_base hb hle]

theorem KernAddr.pa_aligned {kva : Word} (h : KernAddr kva) : (kva - kernbase).toNat % 4096 = 0 := by
  have h1 := h.aligned
  have h2 : kernbase.toNat = 0xF0000000 := rfl
  rw [BitVec.toNat_sub_of_le h.ge, h2]
  omega

section Final

variable {s t : St} {l m : List ℕ} {bootstack : Word}

/-- the region of an address by its page number -/
theorem kernelMap_eq (hn : s.npages.toNat ≤ 65536) (va : Word) : kernelMap s bootstack va =
    if 983040 ≤ pgnum va then some (va - kernbase, pteW ||| pteP)
    else if 983032 ≤ pgnum va then some (bootstack - kernbase + (va - (kstacktop - kstksize)), pteW ||| pteP)
    else if 978944 ≤ pgnum va ∧ pgnum va < 978944 + (s.npages.toNat * 8 + 4095) / 4096 then
      some (s.pagesVa - kernbase + (va - upages), pteU ||| pteP)
    else none := by
  have hup : upages.toNat = 978944 * 4096 := by decide
  have hst : (kstacktop - kstksize).toNat = 983032 * 4096 := by decide
  have hkb : kernbase.toNat = 983040 * 4096 := by decide
  have hkt : kstacktop.toNat = 983040 * 4096 := by decide
  have hend : (upages + roundup (s.npages * sizeofPageInfo) pgsize).toNat =
      978944 * 4096 + (s.npages.toNat * 8 + 4095) / 4096 * 4096 := by
    rw [BitVec.toNat_add, pages_roundup_toNat hn, hup]
    omega
  have hva := va.isLt
  rw [kernelMap, pgnum_eq]
  simp only [BitVec.le_def, BitVec.lt_def, hup, hst, hkb, hkt, hend]
  by_cases h1 : 983040 ≤ va.toNat / 4096
  · rw [if_pos h1, if_neg (by omega), if_neg (by omega), if_pos (by omega)]
  · rw [if_neg h1]
    by_cases h2 : 983032 ≤ va.toNat / 4096
    · rw [if_pos h2, if_neg (by omega), if_pos (by omega)]
    · rw [if_neg h2]
      by_cases h3 : 978944 ≤ va.toNat / 4096 ∧ va.toNat / 4096 < 978944 + (s.npages.toNat * 8 + 4095) / 4096
      · rw [if_pos h3, if_pos (by omega)]
      · rw [if_neg h3, if_neg (by omega), if_neg (by omega), if_neg (by omega)]

theorem kernel_translate (h : Tables s l) (hp : KernAddr s.pagesVa) (hb : KernAddr bootstack)
    (hr : Rounds s l (kernRounds s bootstack) t m) (he : ∀ d, d < 1024 → d ≠ 957 → s.mem s.dir d = 0#32) (va : Word)
    (hw : pdx va ≠ 957) : translate t va = kernelMap s bootstack va := by
  have hlt := pgnum_lt va
  have hle : ∀ {base : Word} {n : ℕ}, base.toNat = n * 4096 → n ≤ pgnum va → base ≤ va := fun hbase hn => by
    rw [pgnum_eq] at hn
    rw [BitVec.le_def, hbase]
    omega
  have hW : (pteW ||| pteP) ||| pteP = pteW ||| pteP := by decide
  have hU : (pteU ||| pteP) ||| pteP = pteU ||| pteP := by decide
  rw [pdx_pgnum] at hw
  rw [kernelMap_eq h.npages_le, translate, hwWalk, kernel_xlat h hr hlt hw]
  by_cases h1 : 983040 ≤ pgnum va
  · have h0 : (0 : Word).toNat % 4096 = 0 := by decide
    have htr := translation_region kernbase (pteW ||| pteP) h0 (by decide)
      (hle (n := 983040) (by decide) h1) (by decide)
    rw [pgnum_kernbase, hW] at htr
    rw [if_pos h1, if_pos h1, Option.map_some, Option.map_some, htr]
    exact congrArg (fun a => some (a, _)) (BitVec.zero_add _)
  · rw [if_neg h1, if_neg h1]
    by_cases h2 : 983032 ≤ pgnum va
    · have htr := translation_region (kstacktop - kstksize) (pteW ||| pteP) hb.pa_aligned (by decide)
        (hle (n := 983032) (by decide) h2) (by decide)
      rw [pgnum_stack, hW] at htr
      rw [if_pos h2, if_pos h2, Option.map_some, Option.map_some, htr]
    · rw [if_neg h2, if_neg h2]
      by_cases h3 : 978944 ≤ pgnum va ∧ pgnum va < 978944 + (s.npages.toNat * 8 + 4095) / 4096
      · have htr := translation_region upages (pteU ||| pteP) hp.pa_aligned (by decide)
          (hle (n := 978944) (by decide) h3.1) (by decide)
        rw [pgnum_upages, hU] at htr
        rw [if_pos h3, if_pos h3, Option.map_some, Option.map_some, htr]
      · have hnone : xlat s.mem s.dir (pgnum va) = none := by
          refine xlat_none (tbl_eq_none.2 ?_)
          rw [he _ (by omega) hw]
          exact not_present_zero
        rw [if_neg h3, if_neg h3, hnone]
        rfl

/-! ## check_kern_pgdir passes -/

theorem forPages_run {n : Word} {body : Word → K Unit} (hn : n.toNat + 4096 ≤ 4294967296)
    (h : ∀ i, i < n → i.toNat % 4096 = 0 → (body i).run s = .ok ((), s)) (fuel : ℕ) {i : Word}
    (hi : i.toNat % 4096 = 0) (hlt : i.toNat < n.toNat + 4096) (hf : n.toNat + 4096 ≤ i.toNat + fuel * 4096) :
    (forPages n body fuel i).run s = .ok ((), s) := by
  induction fuel generalizing i with
  | zero => omega
  | succ fuel ih =>
    by_cases hin : i < n
    · have hadd : (i + pgsize).toNat = i.toNat + 4096 := by
        have hp : pgsize.toNat = 4096 := rfl
        rw [BitVec.lt_def] at hin
        rw [BitVec.toNat_add, hp]
        omega
      rw [forPages, if_pos hin, Prog.run_bind (h i hin hi)]
      rw [BitVec.lt_def] at hin
      exact ih (by omega) (by omega) (by omega)
    · rw [forPages, if_neg hin]
      rfl

/-- from 0 on -/
theorem forPages_run_zero {n : Word} {body : Word → K Unit} (hn : n.toNat + 4096 ≤ 4294967296)
    (h : ∀ i, i < n → i.toNat % 4096 = 0 → (body i).run s = .ok ((), s)) :
    (forPages n body (n.toNat / 4096 + 2) 0#32).run s = .ok ((), s) := by
  refine forPages_run hn h _ (by decide) ?_ ?_
  · rw [BitVec.toNat_zero]; omega
  · omega

/-- check_va2pa agrees with the memory map on page-aligned addresses -/
theorem run_checkVa2pa_map (ht : Tables t m) {va : Word} (hw : pdx va ≠ 957)
    (hmap : translate t va = kernelMap t bootstack va) (ha : va.toNat % 4096 = 0) :
    (checkVa2pa t.kernPgdir va).run t = .ok (((kernelMap t bootstack va).map Prod.fst).getD (~~~0#32), t) := by
  have hoff : va &&& 0xFFF#32 = 0#32 := by
    apply BitVec.eq_of_toNat_eq
    rw [low_toNat, ha]
    rfl
  have hat : atOffset va = id := by
    funext r
    rw [atOffset, hoff, BitVec.add_zero]
    rfl
  rw [run_checkVa2pa ht hw, ← hmap, translate, hat, Option.map_id_fun, id]

theorem checkPdes_run (n : ℕ) (h : ∀ i < n, (checkPde i (s.mem s.dir i)).run s = .ok ((), s)) :
    (checkPdes s.kernPgdir n).run s = .ok ((), s) := by
  induction n with
  | zero => rfl
  | succ n ih =>
    rw [checkPdes, Prog.run_bind (ih fun i hi => h i (Nat.lt_succ_of_lt hi)), Prog.run_bind (run_ldw ..)]
    exact h n (Nat.lt_succ_self n)

theorem tableEntry_writeable {p : ℕ} (hp : p < 1048576) : tableEntry p &&& pteW ≠ 0#32 := by
  rw [and_flag _ _ (by decide), tableEntry_low hp]
  decide

/-- **check_kern_pgdir** passes when the translation is the memory map and the directory has the tables of the kernel part
only. -/
theorem checkKernPgdir_passes (ht : Tables t m) (hp : KernAddr t.pagesVa) (hb : KernAddr bootstack)
    (hmap : ∀ va, pdx va ≠ 957 → translate t va = kernelMap t bootstack va)
    (hdir : ∀ d, d < 1024 → (d ∈ kernTables → ∃ p < t.npages.toNat, t.mem t.dir d = tableEntry p) ∧
      (d ∉ kernTables → d ≠ 957 → t.mem t.dir d = 0#32)) :
    (checkKernPgdir bootstack).run t = .ok ((), t) := by
  have hn := ht.npages_le
  have hup : upages.toNat = 978944 * 4096 := by decide
  have hst : (kstacktop - kstksize).toNat = 983032 * 4096 := by decide
  have hkb : kernbase.toNat = 983040 * 4096 := by decide
  have hroundup := pages_roundup_toNat hn
  have hsize : (t.npages * pgsize).toNat = t.npages.toNat * 4096 := by
    rw [BitVec.toNat_mul]
    change t.npages.toNat * 4096 % 2 ^ 32 = _
    omega
  -- an address of a region, from its offset
  have hva : ∀ {base i n : Word} {b : ℕ}, base.toNat = b * 4096 → i < n → b * 4096 + n.toNat ≤ 4294967296 →
      i.toNat % 4096 = 0 → pgnum (base + i) = b + i.toNat / 4096 ∧ (base + i).toNat % 4096 = 0 ∧ base + i - base = i := by
    intro base i n b hbase hi hle ha
    rw [BitVec.lt_def] at hi
    have hadd : (base + i).toNat = b * 4096 + i.toNat := by
      rw [BitVec.toNat_add, hbase]
      omega
    refine ⟨by rw [pgnum_eq, hadd]; omega, by rw [hadd]; omega, ?_⟩
    rw [BitVec.add_comm, BitVec.add_sub_cancel]
  have hcheck : ∀ {va : Word} {k : ℕ}, pgnum va = k → k / 1024 ≠ 957 → va.toNat % 4096 = 0 → (checkVa2pa t.kernPgdir va).run t =
      .ok (((kernelMap t bootstack va).map Prod.fst).getD (~~~0#32), t) := fun hk hw ha => by
    have hpdx := pdx_pgnum _ ▸ hk ▸ hw
    exact run_checkVa2pa_map ht hpdx (hmap _ hpdx) ha
  rw [checkKernPgdir, Prog.run_bind (run_get t), Prog.run_bind (run_get t)]
  rw [Prog.run_bind (forPages_run_zero (by omega) fun i hi ha => ?_), Prog.run_bind (run_get t),
    Prog.run_bind (forPages_run_zero (by omega) fun i hi ha => ?_), Prog.run_bind (forPages_run_zero (by decide) fun i hi ha => ?_)]
  · -- the stack guard, and the directory
    have hguard : kernelMap t bootstack (kstacktop - ptsize) = none := by
      have hg : pgnum (kstacktop - ptsize) = 982016 := by decide
      rw [kernelMap_eq hn, hg, if_neg (by omega), if_neg (by omega), if_neg (by omega)]
    rw [Prog.run_bind (run_checkVa2pa_map ht (by decide) (hmap _ (by decide)) (by decide)), hguard, Option.map_none,
      Option.getD_none, Prog.run_bind (run_kassert t rfl)]
    refine checkPdes_run npdentries ?_
    intro d hd
    have h957 : pdx uvpt = 957 := pdx_uvpt
    have h959 : pdx (kstacktop - 1) = 959 := by decide
    have h956 : pdx upages = 956 := by decide
    have h960 : pdx kernbase = 960 := by decide
    have hdir' := hdir d hd
    rw [mem_kernTables] at hdir'
    rw [checkPde, h957, h959, h956, h960]
    by_cases hself : d = 957
    · rw [if_pos (Or.inl hself), hself]
      exact run_kassert t (tbl_eq_some.1 ht.self).1
    · by_cases hD : d = 956 ∨ 959 ≤ d ∧ d ≤ 1023
      · obtain ⟨p, hlt, he⟩ := hdir'.1 hD
        have hpres : present (t.mem t.dir d) := he ▸ present_tableEntry (by omega)
        by_cases h3 : d = 957 ∨ d = 959 ∨ d = 956
        · rw [if_pos h3]
          exact run_kassert t hpres
        · rw [if_neg h3, if_pos (by omega), Prog.run_bind (run_kassert t hpres)]
          exact run_kassert t (he ▸ tableEntry_writeable (by omega))
      · change d < 1024 at hd
        rw [if_neg (by omega), if_neg (by omega)]
        exact run_kassert t (hdir'.2 hD hself)
  · -- the kernel stack
    rw [BitVec.lt_def] at hi
    have hi' := hi
    rw [stackSize] at hi'
    obtain ⟨h1, h2, h3⟩ := hva hst (BitVec.lt_def.2 hi) (by rw [stackSize]; omega) ha
    have hk : kernelMap t bootstack (kstacktop - kstksize + i) = some (bootstack - kernbase + i, pteW ||| pteP) := by
      rw [kernelMap_eq hn, h1, h3, if_neg (by omega), if_pos (by omega)]
    rw [Prog.run_bind (hcheck h1 (by omega) h2), Prog.run_bind (run_paddr hb.ge), hk]
    exact run_kassert t rfl
  · -- physical memory
    obtain ⟨h1, h2, h3⟩ := hva hkb hi (by rw [hsize]; omega) ha
    have hk : kernelMap t bootstack (kernbase + i) = some (i, pteW ||| pteP) := by
      rw [kernelMap_eq hn, h1, h3, if_pos (by omega)]
    have hin : i.toNat < t.npages.toNat * 4096 := by
      rw [← hsize]
      exact hi
    rw [Prog.run_bind (hcheck h1 (by omega) h2), hk]
    exact run_kassert t rfl
  · -- the array `pages`
    have hin : i.toNat < (t.npages.toNat * 8 + 4095) / 4096 * 4096 := by
      rw [← hroundup]
      exact hi
    obtain ⟨h1, h2, h3⟩ := hva hup hi (by rw [hroundup]; omega) ha
    have hk : kernelMap t bootstack (upages + i) = some (t.pagesVa - kernbase + i, pteU ||| pteP) := by
      rw [kernelMap_eq hn, h1, h3, if_neg (by omega), if_neg (by omega), if_pos (by omega)]
    rw [Prog.run_bind (hcheck h1 (by omega) h2), Prog.run_bind (run_get t), Prog.run_bind (run_paddr hp.ge), hk]
    exact run_kassert t rfl

theorem tbl_none_of_empty (hempty : ∀ d, d < 1024 → d ≠ 957 → s.mem s.dir d = 0#32) (d : ℕ) (hd : d < 1024) (hw : d ≠ 957) :
    tbl s.mem s.dir d = none := by
  rw [tbl_eq_none, hempty d hd hw]
  exact not_present_zero

/-- 66 free pages are enough for an empty directory -/
theorem absent_le (hlen : 66 ≤ l.length) : absent kernTables s ≤ l.length := by
  refine le_trans (Finset.card_filter_le _ _) ?_
  rwa [kernTables_card]

/-- behind the three calls, from an empty directory, check_kern_pgdir passes -/
theorem checkKernPgdir_run (ht : Tables s l) (h1 : 1 ≤ s.npages.toNat) (hp : KernAddr s.pagesVa) (hb : KernAddr bootstack)
    (hr : Rounds s l (kernRounds s bootstack) t m) (hempty : ∀ d, d < 1024 → d ≠ 957 → s.mem s.dir d = 0#32) :
    (checkKernPgdir bootstack).run t = .ok ((), t) := by
  have hx := hr.fixed
  have hmap' : ∀ va, kernelMap t bootstack va = kernelMap s bootstack va := fun va => by
    rw [kernelMap, kernelMap, hx.npages, hx.pagesVa]
  have hfin := hr.tables ht fun r hr => (kernRounds_mem ht.npages_le bootstack hr).2.1
  refine checkKernPgdir_passes hfin (hx.pagesVa ▸ hp) hb (fun va hw => ?_) fun d hd => ?_
  · rw [kernel_translate ht hp hb hr hempty va hw, hmap']
  · obtain ⟨hk, -, hz⟩ := kernel_dir ht h1 hr hempty hd
    rw [hx.npages]
    exact ⟨hk, hz⟩

/-- **The kernel address space.** 66 free pages are enough for the three calls, the translation behind them is the memory
map at every address outside the UVPT window, and check_kern_pgdir passes. -/
theorem kernel_address_space (s : St) (l : List ℕ) (bootstack : Word) (h1 : 1 ≤ s.npages.toNat)
    (hn : s.npages.toNat ≤ 65536) (hp : KernAddr s.pagesVa) (hb : KernAddr bootstack) (hl : FreeList s l)
    (hlt : ∀ p ∈ l, p < s.npages.toNat) (hdir : s.dir ∉ l) (hlen : 66 ≤ l.length)
    (hself : s.mem s.dir 957 = selfEntry s) (hempty : ∀ d, d < 1024 → d ≠ 957 → s.mem s.dir d = 0#32) :
    ∃ t, (memInitMap bootstack).run s = .ok ((), t) ∧
      (∀ va, pdx va ≠ 957 → translate t va = kernelMap s bootstack va) ∧
      (checkKernPgdir bootstack).run t = .ok ((), t) := by
  have ht : Tables s l := emptyTables hn hl hlt hdir hself (tbl_none_of_empty hempty)
  obtain ⟨t, m, hrun, hr⟩ := memInitMap_run ht hp.ge hb.ge (absent_le hlen)
  exact ⟨t, hrun, kernel_translate ht hp hb hr hempty, checkKernPgdir_run ht h1 hp hb hr hempty⟩

/-- the base memory behind page 0 is on the list that page_init leaves -/
theorem length_initFree (hn : 160 ≤ s.npages.toNat) : 159 ≤ (initFree s).length := by
  have hsub : List.range' 1 159 ⊆ initFree s := fun i hi => by
    rw [List.mem_range'_1] at hi
    exact mem_initFree.2 ((managed_iff (by omega)).2 ⟨by omega, by omega, Or.inl (by omega)⟩)
  simpa using ((List.nodup_range' 1).subperm hsub).length_le

/-- page_init leaves a list that is long enough for the tables of the kernel part -/
theorem pageInit_enough (kend : Word) (h : OnlySelf s) (hn : s.npages.toNat ≤ 65536) (hn' : 160 ≤ s.npages.toNat)
    (hf : s.pageFreeList = none) : ∃ t l, (pageInit kend).run s = .ok ((), t) ∧ ListOnly s t ∧ FreeList t l ∧
      (∀ p ∈ l, p < s.npages.toNat) ∧ s.dir ∉ l ∧ 66 ≤ l.length := by
  obtain ⟨t, ht, hlo, hc, -, -⟩ := pageInit_consistent kend hn hf h rfl
  exact ⟨t, _, ht, hlo, hc, fun p hp => (mem_initFree.1 hp).1, fun hd => h.dir_reserved (mem_initFree.1 hd),
    le_trans (by decide) (length_initFree hn')⟩

/-- the machine of 512 pages after page_init -/
theorem kernel_address_space_small : ∃ s t, (pageInit 0xF0117123#32).run smallSt = .ok ((), s) ∧
    (memInitMap 0xF0110000#32).run s = .ok ((), t) ∧ translate t 0xF0001234#32 = some (0x1234#32, pteW ||| pteP) ∧
    (checkKernPgdir 0xF0110000#32).run t = .ok ((), t) := by
  obtain ⟨s, l, hs, hlo, hc, hlt, hdir, hlen⟩ := pageInit_enough 0xF0117123#32 smallSt_onlySelf (by decide) (by decide) rfl
  have hd : s.dir = smallSt.dir := hlo.toFixed.dir
  have hn : s.npages = 512#32 := hlo.npages
  have hp : s.pagesVa = 0xF0119000#32 := hlo.pagesVa
  have hzero : ∀ d, d ≠ 957 → smallSt.mem smallSt.dir d = 0#32 := fun d hw => if_neg fun h => hw h.2
  obtain ⟨t, ht, hmap, hcheck⟩ := kernel_address_space s l 0xF0110000#32 (by rw [hn]; decide)
    (by rw [hn]; decide) (by rw [hp]; exact ⟨by decide, by decide, by decide⟩) ⟨by decide, by decide, by decide⟩ hc
    (by rwa [hlo.npages]) (by rwa [hd]) hlen
    (by rw [hlo.mem, hd, selfEntry, hlo.kernPgdir]; exact smallSt_onlySelf.self)
    (fun d _ hw => by rw [hlo.mem, hd]; exact hzero d hw)
  refine ⟨s, t, hs, ht, ?_, hcheck⟩
  rw [hmap _ (by decide), kernelMap, hn, hp]
  decide

end Final

end Jos
