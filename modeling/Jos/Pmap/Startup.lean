/-
mem_init up to page_init, and the memory page_init hands out.

The linker puts the kernel between KERNBASE+EXTPHYSMEM and the 4MB that entry_pgdir maps, so `end` lies there
(`KernelEnd`). Results:
- `memInitBoot_ok`: boot_alloc succeeds exactly when kern_pgdir and `pages` fit below 4MB (`BootFits`), and page_init then
  starts in `St.boot`;
- `boot_freeList`: after page_init the free pages are the ones of `FreeAddr`: from PGSIZE to IOPHYSMEM, and from the end
  of the boot allocations on, below npages;
- `free_pages_detected`: they are the pages the comment of page_init names exactly if NVRAM reports 640KB of base memory
  or no other memory at all;
- `free_page_missing_base`: with 512KB of base memory, page 128 is handed out.
-/
import Jos.Pmap.Consistent

namespace Jos

open Jos.Lib

def St.setPgdir (s : St) (kva : Word) : St := { s with kernPgdir := kva }
def St.setPagesVa (s : St) (kva : Word) : St := { s with pagesVa := kva }
/-- the first n bytes of the array `pages` are cleared -/
def St.clearPages (s : St) (n : Word) : St :=
  { s with pages := fun i => if i < n.toNat / 8 then ⟨none, 0⟩ else s.pages i }

/-- mem_init, from the allocation of kern_pgdir to page_init -/
def memInitBoot (kend : Word) : K Unit := do
  let kernPgdir ← bootAlloc kend pgsize
  modify fun s => s.setPgdir kernPgdir
  memset kernPgdir 0 npdentries
  stw ⟨frameOf kernPgdir, pdx uvpt⟩ ((← paddr kernPgdir) ||| pteU ||| pteP)
  let n := (← get).npages * sizeofPageInfo
  let pages ← bootAlloc kend n
  modify fun s => s.setPagesVa pages
  -- memset(pages, 0, n)
  modify fun s => s.clearPages n
  pageInit kend

/-- where the linker puts the end of the kernel -/
structure KernelEnd (kend : Word) : Prop where
  ge : kernbase + extphysmem ≤ kend
  le : kend ≤ kernbase + 0x400000#32

/-- kern_pgdir and `pages` fit below 4MB -/
def BootFits (s : St) (kend : Word) : Prop :=
  pgsize ≤ bytesLeft (roundup kend pgsize) ∧
    s.npages * sizeofPageInfo ≤ bytesLeft (roundup kend pgsize + pgsize)

/-- kern_pgdir is the page at address k, cleared but for the self entry -/
def St.bootDir (s : St) (k : Word) : St :=
  (((s.setNextfree (k + pgsize)).setPgdir k).fill (frameOf k) npdentries 0#32).emit
    (.store (frameOf k) 957 ((k - kernbase) ||| pteU ||| pteP))

/-- the state in which page_init starts, with `pages` behind kern_pgdir -/
def St.boot (s : St) (k : Word) : St :=
  (((s.bootDir k).setNextfree (roundup (k + pgsize + s.npages * sizeofPageInfo) pgsize)).setPagesVa
    (k + pgsize)).clearPages (s.npages * sizeofPageInfo)

section Fields
variable (s : St) (k v : Word)

@[simp] theorem St.setPgdir_npages : (s.setPgdir v).npages = s.npages := rfl
@[simp] theorem St.setPgdir_npagesBasemem : (s.setPgdir v).npagesBasemem = s.npagesBasemem := rfl
@[simp] theorem St.setPgdir_kernPgdir : (s.setPgdir v).kernPgdir = v := rfl
@[simp] theorem St.setPgdir_nextfree : (s.setPgdir v).nextfree = s.nextfree := rfl
@[simp] theorem St.setPgdir_free : (s.setPgdir v).pageFreeList = s.pageFreeList := rfl
@[simp] theorem St.setPgdir_mem : (s.setPgdir v).mem = s.mem := rfl
@[simp] theorem St.setPgdir_log : (s.setPgdir v).log = s.log := rfl

/-- `pages` is allocated: the array and its address -/
@[simp] theorem St.setPages_npages (w : Word) : ((s.setPagesVa v).clearPages w).npages = s.npages := rfl
@[simp] theorem St.setPages_npagesBasemem (w : Word) :
    ((s.setPagesVa v).clearPages w).npagesBasemem = s.npagesBasemem := rfl
@[simp] theorem St.setPages_kernPgdir (w : Word) : ((s.setPagesVa v).clearPages w).kernPgdir = s.kernPgdir := rfl
@[simp] theorem St.setPages_nextfree (w : Word) : ((s.setPagesVa v).clearPages w).nextfree = s.nextfree := rfl
@[simp] theorem St.setPages_free (w : Word) : ((s.setPagesVa v).clearPages w).pageFreeList = s.pageFreeList := rfl
@[simp] theorem St.setPages_mem (w : Word) : ((s.setPagesVa v).clearPages w).mem = s.mem := rfl
@[simp] theorem St.setPages_log (w : Word) : ((s.setPagesVa v).clearPages w).log = s.log := rfl

/-- the stores into kern_pgdir leave the globals alone -/
theorem St.fixed_bootDir : Fixed ((s.setNextfree (k + pgsize)).setPgdir k) (s.bootDir k) :=
  (fixed_fill ..).trans (fixed_emit ..)

@[simp] theorem St.bootDir_npages : (s.bootDir k).npages = s.npages := by simp [(s.fixed_bootDir k).npages]
@[simp] theorem St.bootDir_nextfree : (s.bootDir k).nextfree = k + pgsize := by simp [(s.fixed_bootDir k).nextfree]
@[simp] theorem St.boot_npages : (s.boot k).npages = s.npages := by simp [St.boot]
@[simp] theorem St.boot_npagesBasemem : (s.boot k).npagesBasemem = s.npagesBasemem := by
  simp [St.boot, (s.fixed_bootDir k).npagesBasemem]
@[simp] theorem St.boot_kernPgdir : (s.boot k).kernPgdir = k := by simp [St.boot, (s.fixed_bootDir k).kernPgdir]
@[simp] theorem St.boot_free : (s.boot k).pageFreeList = s.pageFreeList := by simp [St.boot, St.bootDir]
@[simp] theorem St.boot_nextfree :
    (s.boot k).nextfree = roundup (k + pgsize + s.npages * sizeofPageInfo) pgsize := by simp [St.boot]
@[simp] theorem St.boot_mem : (s.boot k).mem =
    (s.mem.fill (frameOf k) npdentries 0#32).set (frameOf k) 957 ((k - kernbase) ||| pteU ||| pteP) := by
  simp [St.boot, St.bootDir, Ev.mem]

end Fields

/-! ## Addresses -/

section Addresses

variable {s : St} {kend : Word}

theorem KernelEnd.toNat (h : KernelEnd kend) :
    0xF0100000 ≤ (roundup kend pgsize).toNat ∧ (roundup kend pgsize).toNat ≤ 0xF0400000 ∧
      (roundup kend pgsize).toNat % 4096 = 0 := by
  have h1 := h.ge
  have h2 := h.le
  rw [BitVec.le_def] at h1 h2
  have e1 : (kernbase + extphysmem).toNat = 0xF0100000 := by decide
  have e2 : (kernbase + 0x400000#32).toNat = 0xF0400000 := by decide
  rw [roundup_pgsize_toNat (by omega)]
  omega

theorem bytesLeft_toNat {k : Word} (h1 : 0xF0000000 ≤ k.toNat) (h2 : k.toNat ≤ 0xF0400000) :
    (bytesLeft k).toNat = 0xF0400000 - k.toNat := by
  simp only [bytesLeft, kernbase]
  bv_omega

/-- the addresses of the boot allocations: kern_pgdir, `pages` one page behind it, and the first free address -/
theorem BootFits.toNat (h : BootFits s kend) (hk : KernelEnd kend) :
    (roundup kend pgsize + pgsize).toNat = (roundup kend pgsize).toNat + 4096 ∧
    (roundup kend pgsize).toNat + 4096 + (s.npages * sizeofPageInfo).toNat ≤ 0xF0400000 ∧
    (s.boot (roundup kend pgsize)).nextfree.toNat =
      ((roundup kend pgsize).toNat + 4096 + (s.npages * sizeofPageInfo).toNat + 4095) / 4096 * 4096 := by
  obtain ⟨hge, hle, -⟩ := hk.toNat
  obtain ⟨h1, h2⟩ := h
  rw [BitVec.le_def] at h1 h2
  have hp : pgsize.toNat = 4096 := rfl
  rw [bytesLeft_toNat (by omega) hle, hp] at h1
  have hadd : (roundup kend pgsize + pgsize).toNat = (roundup kend pgsize).toNat + 4096 := by
    rw [BitVec.toNat_add, hp]; omega
  rw [bytesLeft_toNat (by omega) (by omega), hadd] at h2
  refine ⟨hadd, by omega, ?_⟩
  have hsum : (roundup kend pgsize + pgsize + s.npages * sizeofPageInfo).toNat =
      (roundup kend pgsize).toNat + 4096 + (s.npages * sizeofPageInfo).toNat := by
    rw [BitVec.toNat_add, hadd]; omega
  rw [St.boot_nextfree, roundup_pgsize_toNat (by omega), hsum]

end Addresses

/-! ## The run -/

section Run

variable {s : St} {kend : Word}

/-- boot_alloc from a page-aligned nextfree, also of 0 bytes -/
theorem run_bootAlloc_fits (kend : Word) {n : Word} (h : kernbase ≤ s.nextfree) (ha : s.nextfree.toNat % 4096 = 0)
    (hlt : s.nextfree.toNat + 4095 < 4294967296) (hn : n ≤ bytesLeft s.nextfree) :
    (bootAlloc kend n).run s = .ok (s.nextfree, s.setNextfree (roundup (s.nextfree + n) pgsize)) := by
  by_cases h0 : n = 0#32
  · have hnf : s.nextfree ≠ 0#32 := fun e => by rw [e] at h; exact absurd h (by decide)
    have hr : roundup (s.nextfree + n) pgsize = s.nextfree := by
      apply BitVec.eq_of_toNat_eq
      rw [h0, BitVec.add_zero, roundup_pgsize_toNat hlt]
      omega
    rw [hr, h0, run_bootAlloc_zero hnf, St.setNextfree_self]
  · rw [run_bootAlloc h h0, if_pos hn]

theorem run_memInitBoot_dir (h0 : s.nextfree = 0#32) (hk : KernelEnd kend)
    (h1 : pgsize ≤ bytesLeft (roundup kend pgsize)) :
    (memInitBoot kend).run s = (do
      let pages ← bootAlloc kend (s.npages * sizeofPageInfo)
      modify fun t => t.setPagesVa pages
      modify fun t => t.clearPages (s.npages * sizeofPageInfo)
      pageInit kend : K Unit).run (s.bootDir (roundup kend pgsize)) := by
  obtain ⟨hge, hle, hal⟩ := hk.toNat
  set k := roundup kend pgsize with hkdef
  have hkb : kernbase ≤ k := by rw [BitVec.le_def]; simp only [kernbase]; bv_omega
  have hk0 : k ≠ 0#32 := fun e => by rw [e] at hge; exact absurd hge (by decide)
  have hadd : (k + pgsize).toNat = k.toNat + 4096 := by
    simp only [pgsize]; bv_omega
  have hnext : roundup (k + pgsize) pgsize = k + pgsize := by
    apply BitVec.eq_of_toNat_eq
    rw [roundup_pgsize_toNat (by omega)]
    omega
  have ha : (bootAlloc kend pgsize).run s = .ok (k, s.setNextfree (k + pgsize)) := by
    rw [run_bootAlloc_first h0 hk0, run_bootAlloc_fits kend (s := s.setNextfree k) hkb hal (by
      rw [St.setNextfree_nextfree]; omega) h1, St.setNextfree_nextfree, St.setNextfree_setNextfree, hnext]
  have hb : byteWord (0 &&& 0xFF) = 0#32 := by decide
  rw [memInitBoot, Prog.run_bind ha]
  simp only [StateT.run_bind, StateT.run_modify, pure_ok, ok_bind, run_memset, hb, run_paddr hkb, run_stw, run_get,
    pdx_uvpt, ← St.bootDir.eq_def, St.bootDir_npages]

theorem run_memInitBoot (h0 : s.nextfree = 0#32) (hk : KernelEnd kend) (hf : BootFits s kend) :
    (memInitBoot kend).run s = (pageInit kend).run (s.boot (roundup kend pgsize)) := by
  obtain ⟨hadd, hsum, -⟩ := hf.toNat hk
  obtain ⟨hge, hle, hal⟩ := hk.toNat
  have hkb : kernbase ≤ roundup kend pgsize + pgsize := by
    rw [BitVec.le_def, hadd]; simp only [kernbase]; bv_omega
  have hp := run_bootAlloc_fits kend (s := s.bootDir (roundup kend pgsize))
    (n := s.npages * sizeofPageInfo) hkb (by rw [St.bootDir_nextfree]; omega) (by rw [St.bootDir_nextfree]; omega) hf.2
  rw [run_memInitBoot_dir h0 hk hf.1, Prog.run_bind hp]
  simp only [StateT.run_bind, StateT.run_modify, pure_ok, ok_bind, St.bootDir_nextfree, ← St.boot.eq_def]

/-- boot_alloc panics when kern_pgdir or `pages` does not fit -/
theorem bootFits_of_ok {t : St} {u : Unit} (h0 : s.nextfree = 0#32) (hk : KernelEnd kend)
    (hrun : (memInitBoot kend).run s = .ok (u, t)) : BootFits s kend := by
  obtain ⟨hge, hle, hal⟩ := hk.toNat
  have hkb : kernbase ≤ roundup kend pgsize := by rw [BitVec.le_def]; simp only [kernbase]; bv_omega
  have hk0 : roundup kend pgsize ≠ 0#32 := fun e => by rw [e] at hge; exact absurd hge (by decide)
  have h1 : pgsize ≤ bytesLeft (roundup kend pgsize) := by
    by_contra h1
    rw [memInitBoot, StateT.run_bind, run_bootAlloc_first h0 hk0,
      run_bootAlloc (s := s.setNextfree (roundup kend pgsize)) hkb (by decide), St.setNextfree_nextfree, if_neg h1] at hrun
    cases hrun
  refine ⟨h1, ?_⟩
  by_contra h2
  have hn : s.npages * sizeofPageInfo ≠ 0#32 := fun e => h2 (by rw [e, BitVec.le_def]; exact Nat.zero_le _)
  have hkb' : kernbase ≤ roundup kend pgsize + pgsize := by
    rw [BitVec.le_def] at h1 ⊢
    rw [bytesLeft_toNat (by omega) hle] at h1
    simp only [kernbase, pgsize] at *
    bv_omega
  rw [run_memInitBoot_dir h0 hk h1, StateT.run_bind,
    run_bootAlloc (s := s.bootDir (roundup kend pgsize)) (by rwa [St.bootDir_nextfree]) hn, St.bootDir_nextfree,
    if_neg h2] at hrun
  cases hrun

end Run

/-! ## After page_init -/

section Init

variable {s : St} {kend : Word}

theorem boot_onlySelf (hk : KernelEnd kend) (hf : BootFits s kend) : OnlySelf (s.boot (roundup kend pgsize)) := by
  obtain ⟨hge, hle, hal⟩ := hk.toNat
  obtain ⟨hadd, hsum, hnext⟩ := hf.toNat hk
  have hdir : (s.boot (roundup kend pgsize)).dir = frameOf (roundup kend pgsize) := by
    rw [St.dir, St.boot_kernPgdir]
  refine ⟨?_, ?_, ?_, ?_⟩
  · rw [St.boot_kernPgdir, BitVec.le_def]
    simp only [kernbase, extphysmem]
    bv_omega
  · rw [St.boot_kernPgdir, BitVec.lt_def, hnext]
    omega
  · simp [hdir, Mem.set, selfEntry]
  · intro d hd hw
    have h0 : (s.boot (roundup kend pgsize)).mem (s.boot (roundup kend pgsize)).dir d = 0#32 := by
      simp [hdir, Mem.set, Mem.fill, hw, npdentries, hd]
    rw [h0]
    exact not_present_zero

/-- when the boot allocations fit, page_init is reached and returns -/
theorem memInitBoot_run (h0 : s.nextfree = 0#32) (hl : s.pageFreeList = none) (hk : KernelEnd kend)
    (hf : BootFits s kend) : ∃ t, (memInitBoot kend).run s = .ok ((), t) := by
  have ho := boot_onlySelf hk hf
  obtain ⟨t, ht, -⟩ := pageInit_spec kend ho.nextfree_ge ((St.boot_free ..).trans hl)
  exact ⟨t, by rw [run_memInitBoot h0 hk hf, ht]⟩

/-- and page_init gives the reserved pages their reference -/
theorem memInitBoot_reserved {t : St} {u : Unit} (h0 : s.nextfree = 0#32) (hl : s.pageFreeList = none)
    (hk : KernelEnd kend) (hrun : (memInitBoot kend).run s = .ok (u, t)) {i : ℕ} (hi : i < s.npages.toNat)
    (hr : Reserved (s.boot (roundup kend pgsize)) i) : t.ref i = 1#16 := by
  have hf := bootFits_of_ok h0 hk hrun
  have ho := boot_onlySelf hk hf
  obtain ⟨t', ht', -, -, -, hres, -⟩ := pageInit_spec kend ho.nextfree_ge ((St.boot_free ..).trans hl)
  rw [run_memInitBoot h0 hk hf, ht'] at hrun
  obtain rfl : t' = t := (Prod.ext_iff.1 (Except.ok.inj hrun)).2
  exact (hres i (by rwa [St.boot_npages]) hr).1

/-- **mem_init up to page_init.** -/
theorem memInitBoot_ok {t : St} {u : Unit} (h0 : s.nextfree = 0#32) (hl : s.pageFreeList = none) (hk : KernelEnd kend)
    (hrun : (memInitBoot kend).run s = .ok (u, t)) :
    BootFits s kend ∧ ListOnly (s.boot (roundup kend pgsize)) t ∧
      FreeList t (initFree (s.boot (roundup kend pgsize))) ∧
      (∀ i, Managed (s.boot (roundup kend pgsize)) i → t.ref i = 0#16) ∧
      (s.npages.toNat ≤ 65536 → Consistent t) := by
  have hf := bootFits_of_ok h0 hk hrun
  have ho := boot_onlySelf hk hf
  have hfree : (s.boot (roundup kend pgsize)).pageFreeList = none := by rw [St.boot_free, hl]
  obtain ⟨t', ht', hlo, hc, hr, -, -⟩ := pageInit_spec kend ho.nextfree_ge hfree
  rw [run_memInitBoot h0 hk hf] at hrun
  obtain rfl := (Prod.ext_iff.1 (Except.ok.inj (ht'.symm.trans hrun))).2
  exact ⟨hf, hlo, hc, hr, fun hn => ho.consistent (by rwa [St.boot_npages]) hlo hc hr⟩

/-- no page that page_init leaves on the list holds a byte of the array `pages` -/
theorem memInitBoot_array {t : St} {u : Unit} (h0 : s.nextfree = 0#32) (hl : s.pageFreeList = none) (hk : KernelEnd kend)
    (hrun : (memInitBoot kend).run s = .ok (u, t)) (hn : s.npages.toNat ≤ 65536) {i : ℕ}
    (hi : i ∈ initFree (s.boot (roundup kend pgsize))) :
    i * 4096 + 4096 ≤ (t.pagesVa - kernbase).toNat ∨
      (t.pagesVa - kernbase).toNat + (s.npages * sizeofPageInfo).toNat ≤ i * 4096 := by
  obtain ⟨hf, hlo, -⟩ := memInitBoot_ok h0 hl hk hrun
  obtain ⟨hge, hle, -⟩ := hk.toNat
  obtain ⟨hadd, hsum, hnext⟩ := hf.toNat hk
  have hm := mem_initFree.1 hi
  have hlt : i < 65536 := lt_of_lt_of_le (by simpa using hm.1) hn
  have hva : t.pagesVa = roundup kend pgsize + pgsize := hlo.pagesVa
  have hkb : kernbase.toNat = 0xF0000000 := rfl
  have harray : (t.pagesVa - kernbase).toNat = (roundup kend pgsize).toNat + 4096 - 0xF0000000 := by
    rw [hva, BitVec.toNat_sub_of_le (by rw [BitVec.le_def, hadd, hkb]; omega), hadd, hkb]
  have hend : ((s.boot (roundup kend pgsize)).nextfree - kernbase).toNat =
      (s.boot (roundup kend pgsize)).nextfree.toNat - 0xF0000000 :=
    BitVec.toNat_sub_of_le (by rw [BitVec.le_def, hnext, hkb]; omega)
  rcases ((managed_iff (by omega)).1 hm).2.2 with hbase | hext
  · exact Or.inl (by omega)
  · exact Or.inr (by omega)

end Init

/-! ## Detected memory -/

section Detect

variable {cmos : ℕ → BitVec 8} {s t : St} {kend : Word}

theorem nvramRead_lt (cmos : ℕ → BitVec 8) (r : ℕ) : (nvramRead cmos r).toNat < 65536 := by
  have h1 : (mc146818Read cmos r).toNat < 2 ^ 16 := by
    have := (cmos r).isLt
    simp only [mc146818Read, BitVec.toNat_setWidth]
    omega
  have h2 : (mc146818Read cmos (r + 1) <<< 8).toNat < 2 ^ 16 := by
    have := (cmos (r + 1)).isLt
    simp only [mc146818Read, BitVec.toNat_shiftLeft, BitVec.toNat_setWidth, Nat.shiftLeft_eq]
    omega
  rw [nvramRead, BitVec.toNat_or]
  exact Nat.or_lt_two_pow h1 h2

/-- pages of 4KB in a number of KB -/
theorem div_pgsize (n : Word) : (n / (pgsize / 1024)).toNat = n.toNat / 4 := by
  have h : pgsize / 1024 = 4#32 := by decide
  rw [h, BitVec.toNat_udiv]
  rfl

/-- with more memory than the base memory there are pages up to EXTPHYSMEM at least -/
theorem totalmem_toNat {b e x : Word} (hb : b.toNat < 65536) (he : e.toNat < 65536) (hx : x.toNat < 65536) :
    (totalmem b e (x * 64)).toNat < 8388608 ∧
      (e = 0#32 ∧ x = 0#32 ∧ totalmem b e (x * 64) = b ∨
        (e ≠ 0#32 ∨ x ≠ 0#32) ∧ 1024 ≤ (totalmem b e (x * 64)).toNat) := by
  have hx64 : (x * 64).toNat = x.toNat * 64 := by
    rw [BitVec.toNat_mul]
    change x.toNat * 64 % 2 ^ 32 = _
    omega
  have h16 : (16 * 1024 + x * 64 : Word).toNat = 16384 + x.toNat * 64 := by
    rw [BitVec.toNat_add, hx64]
    change (16384 + x.toNat * 64) % 2 ^ 32 = _
    omega
  have h1 : (1 * 1024 + e : Word).toNat = 1024 + e.toNat := by
    rw [BitVec.toNat_add]
    change (1024 + e.toNat) % 2 ^ 32 = _
    omega
  have hx0 : x * 64 = 0#32 ↔ x = 0#32 := by
    rw [← BitVec.toNat_inj, ← BitVec.toNat_inj, hx64]
    simp
  by_cases hx' : x = 0#32
  · by_cases he' : e = 0#32
    · have ht : totalmem b e (x * 64) = b := by simp [totalmem, hx', he']
      rw [ht]
      exact ⟨by omega, Or.inl ⟨he', hx', rfl⟩⟩
    · have ht : totalmem b e (x * 64) = 1 * 1024 + e := by simp [totalmem, hx', he']
      rw [ht, h1]
      exact ⟨by omega, Or.inr ⟨Or.inl he', by omega⟩⟩
  · have ht : totalmem b e (x * 64) = 16 * 1024 + x * 64 := by
      unfold totalmem
      rw [if_pos fun h => hx' (hx0.1 h)]
    rw [ht, h16]
    exact ⟨by omega, Or.inr ⟨Or.inr hx', by omega⟩⟩

/-- mem_init, from the detection of memory to page_init -/
def memInitDetect (cmos : ℕ → BitVec 8) (kend : Word) : K Unit := do
  i386DetectMemory cmos
  memInitBoot kend

/-- the free pages by the comment of page_init: the rest of base memory below the IO hole, and extended memory behind
the boot allocations -/
def CommentFree (s : St) (i : ℕ) : Prop :=
  (4096 ≤ i * 4096 ∧ i * 4096 < s.npagesBasemem.toNat * 4096 ∧ i * 4096 < iophysmem.toNat ∧
      i * 4096 < s.npages.toNat * 4096) ∨
    ((s.nextfree - kernbase).toNat ≤ i * 4096 ∧ i * 4096 < s.npages.toNat * 4096)

/-- the free list holds what the comment of page_init says, and nothing between base memory and EXTPHYSMEM -/
def FreeAsDetected (s : St) : Prop :=
  (∀ i, OnFreeList s i ↔ CommentFree s i) ∧
    ∀ i, OnFreeList s i → ¬ (s.npagesBasemem.toNat * 4096 ≤ i * 4096 ∧ i * 4096 < extphysmem.toNat)

/-- the free pages of a machine that has detected N pages, B of them base memory, with boot allocations up to F -/
theorem freeAsDetected_iff {N B F : ℕ} {l : List ℕ} (hl : FreeList t l) (hN : t.npages.toNat = N)
    (hB : t.npagesBasemem.toNat = B) (hF : (t.nextfree - kernbase).toNat = F) (hF1 : 0x100000 ≤ F)
    (hmem : ∀ i, i ∈ l ↔ i < N ∧ i ≠ 0 ∧ (i * 4096 < 0xA0000 ∨ F ≤ i * 4096)) :
    FreeAsDetected t ↔ 160 ≤ B ∨ N ≤ max 1 B := by
  have hio : iophysmem.toNat = 0xA0000 := rfl
  have hext : extphysmem.toNat = 0x100000 := rfl
  have hfree : ∀ i, OnFreeList t i ↔ i < N ∧ i ≠ 0 ∧ (i * 4096 < 0xA0000 ∨ F ≤ i * 4096) := fun i =>
    (onFreeList_iff hl i).trans (hmem i)
  constructor
  · rintro ⟨h, -⟩
    by_contra hc
    rw [not_or, not_le, not_le] at hc
    -- the first page behind base memory is free
    have h1 := (h (max 1 B)).1 ((hfree _).2 ⟨hc.2, by omega, Or.inl (by omega)⟩)
    rcases h1 with h1 | h1
    · rw [hB] at h1
      omega
    · rw [hF] at h1
      omega
  · intro hc
    refine ⟨?_, ?_⟩
    · intro i
      rw [hfree, CommentFree, hN, hB, hF, hio]
      omega
    · intro i hi
      rw [hfree] at hi
      rw [hB, hext]
      omega

/-- the memory NVRAM reports, in KB -/
def cmosTotalmem (cmos : ℕ → BitVec 8) : Word :=
  totalmem (nvramRead cmos nvramBaselo) (nvramRead cmos nvramExtlo) (nvramRead cmos nvramExt16lo * 64)

def St.detect (s : St) (cmos : ℕ → BitVec 8) : St :=
  s.setNpages (cmosTotalmem cmos / (pgsize / 1024)) (nvramRead cmos nvramBaselo / (pgsize / 1024))

theorem run_detect (cmos : ℕ → BitVec 8) (kend : Word) (s : St) :
    (memInitDetect cmos kend).run s = (memInitBoot kend).run (s.detect cmos) := by
  simp [memInitDetect, i386DetectMemory, St.detect, cmosTotalmem]

/-- the memory map behind page_init: first free address, and the free pages by number -/
theorem boot_freeList {u : Unit} (h0 : s.nextfree = 0#32) (hl : s.pageFreeList = none) (hk : KernelEnd kend)
    (hn : s.npages.toNat < 2097152) (hrun : (memInitBoot kend).run s = .ok (u, t)) :
    t.npages = s.npages ∧ t.npagesBasemem = s.npagesBasemem ∧ 0x100000 ≤ (t.nextfree - kernbase).toNat ∧
      ∃ l, FreeList t l ∧ ∀ i, i ∈ l ↔
        i < s.npages.toNat ∧ i ≠ 0 ∧ (i * 4096 < 0xA0000 ∨ (t.nextfree - kernbase).toNat ≤ i * 4096) := by
  obtain ⟨hf, hlo, hc, -, -⟩ := memInitBoot_ok h0 hl hk hrun
  obtain ⟨hge, hle, hal⟩ := hk.toNat
  obtain ⟨-, hsum, hnext⟩ := hf.toNat hk
  have h8 : (s.npages * sizeofPageInfo).toNat = s.npages.toNat * 8 := by
    rw [BitVec.toNat_mul]
    change s.npages.toNat * 8 % 2 ^ 32 = _
    omega
  rw [hlo.nextfree]
  refine ⟨by rw [hlo.npages, St.boot_npages], by rw [hlo.npagesBasemem, St.boot_npagesBasemem], ?_, _, hc, ?_⟩
  · rw [BitVec.toNat_sub_of_le (by rw [BitVec.le_def, hnext]; simp only [kernbase]; bv_omega), hnext]
    change 1048576 ≤ _ - 0xF0000000
    omega
  · intro i
    rw [mem_initFree]
    by_cases hi : i < 1048576
    · rw [managed_iff hi, St.boot_npages]
    · refine ⟨fun hm => absurd hm.1 ?_, fun hm => absurd hm.1 ?_⟩
      · rw [St.boot_npages]; omega
      · omega

/-- **The free pages are the detected ones** exactly if base memory fills the space below the IO hole, or there is no
other memory. -/
theorem free_pages_detected (cmos : ℕ → BitVec 8) (kend : Word) (s t : St) (h0 : s.nextfree = 0#32)
    (hl : s.pageFreeList = none) (hk : KernelEnd kend) (hrun : (memInitDetect cmos kend).run s = .ok ((), t)) :
    FreeAsDetected t ↔ 640 ≤ (nvramRead cmos nvramBaselo).toNat ∨
      (nvramRead cmos nvramExtlo = 0#32 ∧ nvramRead cmos nvramExt16lo = 0#32) := by
  obtain ⟨hlt, hcase⟩ := totalmem_toNat (nvramRead_lt cmos nvramBaselo) (nvramRead_lt cmos nvramExtlo)
    (nvramRead_lt cmos nvramExt16lo)
  rw [← cmosTotalmem] at hlt hcase
  have hN : (s.detect cmos).npages.toNat = (cmosTotalmem cmos).toNat / 4 := div_pgsize _
  have hB : (s.detect cmos).npagesBasemem.toNat = (nvramRead cmos nvramBaselo).toNat / 4 := div_pgsize _
  rw [run_detect] at hrun
  obtain ⟨hn, hb, hF, l, hc, hmem⟩ := boot_freeList (s := s.detect cmos) h0 hl hk (by omega) hrun
  rw [freeAsDetected_iff hc (by rw [hn]) (by rw [hb]) rfl hF hmem, hN, hB]
  rcases hcase with ⟨h1, h2, h3⟩ | ⟨h1, h2⟩
  · rw [h3]
    exact ⟨fun _ => Or.inr ⟨h1, h2⟩, fun _ => Or.inr (le_max_right _ _)⟩
  · have hno : ¬ (nvramRead cmos nvramExtlo = 0#32 ∧ nvramRead cmos nvramExt16lo = 0#32) := fun h =>
      h1.elim (fun h' => h' h.1) fun h' => h' h.2
    rw [or_iff_left hno]
    omega

end Detect

/-- the machine before mem_init -/
def coldSt : St where
  npages := 0
  npagesBasemem := 0
  kernPgdir := 0
  pagesVa := 0
  pages := fun _ => ⟨none, 0⟩
  pageFreeList := none
  nextfree := 0
  cr3 := 0x117000
  mem := fun _ _ => 0
  log := []

/-- NVRAM of a machine with 640KB of base memory and 1MB of extended memory -/
def cmos640 : ℕ → BitVec 8 := fun r => if r = 21 then 0x80 else if r = 22 then 2 else if r = 24 then 4 else 0

/-- NVRAM of a machine with 512KB of base memory and 1MB of extended memory -/
def cmos512 : ℕ → BitVec 8 := fun r => if r = 22 then 2 else if r = 24 then 4 else 0

theorem free_pages_detected_640 :
    ∃ t, (memInitDetect cmos640 0xF0117123#32).run coldSt = .ok ((), t) ∧ FreeAsDetected t := by
  have hk : KernelEnd 0xF0117123#32 := ⟨by decide, by decide⟩
  obtain ⟨t, ht⟩ := memInitBoot_run (s := coldSt.detect cmos640) rfl rfl hk ⟨by decide, by decide⟩
  rw [← run_detect] at ht
  exact ⟨t, ht, (free_pages_detected cmos640 _ coldSt t rfl rfl hk ht).2 (Or.inl (by decide))⟩

/-- page 128 lies behind the base memory, and page_init leaves it on the free list -/
theorem free_page_missing_base : ∃ t, (memInitDetect cmos512 0xF0117123#32).run coldSt = .ok ((), t) ∧
    t.npagesBasemem.toNat = 128 ∧ OnFreeList t 128 ∧ ¬ FreeAsDetected t := by
  have hk : KernelEnd 0xF0117123#32 := ⟨by decide, by decide⟩
  obtain ⟨t, ht⟩ := memInitBoot_run (s := coldSt.detect cmos512) rfl rfl hk ⟨by decide, by decide⟩
  obtain ⟨-, hb, -, l, hc, hmem⟩ := boot_freeList (s := coldSt.detect cmos512) rfl rfl hk (by decide) ht
  have hb' : t.npagesBasemem.toNat = 128 := by
    rw [hb]; decide
  have hfree : OnFreeList t 128 := (onFreeList_iff hc 128).2 ((hmem 128).2 ⟨by decide, by decide, Or.inl (by decide)⟩)
  refine ⟨t, by rw [run_detect, ht], hb', hfree, fun h => h.2 128 hfree ⟨?_, by decide⟩⟩
  rw [hb']

end Jos
