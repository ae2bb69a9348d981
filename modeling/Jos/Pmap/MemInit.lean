/-
mem_init from check_page_free_list(1) to check_kern_pgdir, and the pages it takes.

entry_pgdir maps the first 4MB at KERNBASE, and nothing else, until kern_pgdir is installed: until then a page table has to
lie below 4MB. check_page_free_list(1) puts these pages first on the list, `Booted` says how many there are, and the
self-tests leave them there. Results:
- `memInitChecked_booted`: the assertions of check_page_free_list(1) leave at least 159 pages below 4MB, in front;
- `memInitVm_run`: from there on nothing fails, no assertion and no call of pgdir_walk, up to check_kern_pgdir;
- `boot_pages_low`: every page that page_alloc hands out on the way lies below 4MB.
-/
import Jos.Pmap.KernMap
import Jos.Pmap.SelfTest

namespace Jos

open Jos.Lib

/-- mem_init, from check_page_alloc to check_kern_pgdir -/
def memInitVm (bootstack : Word) : K Unit := do
  checkPageAlloc
  checkPage
  memInitMap bootstack
  checkKernPgdir bootstack

/-! ## The end of the kernel -/

section KernelEnd

variable {k k' : Word} (h : roundup k pgsize = roundup k' pgsize)
include h

theorem bootAlloc_congr (n : Word) : bootAlloc k n = bootAlloc k' n := by
  unfold bootAlloc
  rw [h]

theorem pageInitSweep_congr (fuel : ℕ) (r : LinkRef) : pageInitSweep k fuel r = pageInitSweep k' fuel r := by
  induction fuel generalizing r with
  | zero => rfl
  | succ fuel ih => simp only [pageInitSweep, pageInitHole, bootAlloc_congr h, ih]

/-- only ROUNDUP(end) is looked at -/
theorem memInitChecked_congr : memInitChecked k = memInitChecked k' := by
  simp only [memInitChecked, memInitBoot, pageInit, checkPageFreeList, checkPages, bootAlloc_congr h,
    pageInitSweep_congr h]

end KernelEnd

/-! ## After check_page_free_list(1) -/

/-- the free list is low ++ high, with at least 159 pages in low, all of them below 4MB; kern_pgdir is empty but for the
self entry -/
structure Booted (t : St) (low high : List ℕ) : Prop where
  npages_le : t.npages.toNat ≤ 65536
  list : FreeList t (low ++ high)
  lt : ∀ p ∈ low ++ high, p < t.npages.toNat
  dir : t.dir ∉ low ++ high
  ref : ∀ p ∈ low ++ high, t.ref p = 0#16
  self : t.mem t.dir 957 = selfEntry t
  empty : ∀ d, d < 1024 → d ≠ 957 → t.mem t.dir d = 0#32
  below : ∀ p ∈ low, p < 1024
  enough : 159 ≤ low.length
  pagesVa : KernAddr t.pagesVa
  nextfree : t.nextfree ≠ 0#32

section Booted

variable {s t u : St} {kend bootstack : Word} {low high : List ℕ}

theorem boot_empty (s : St) (k : Word) {d : ℕ} (hd : d < 1024) (hw : d ≠ 957) :
    (s.boot k).mem (s.boot k).dir d = 0#32 := by
  rw [St.dir, St.boot_kernPgdir, St.boot_mem]
  simp [Mem.set, Mem.fill, hw, npdentries, hd]

theorem boot_pagesVa (s : St) (k : Word) : (s.boot k).pagesVa = k + pgsize := rfl

/-- a page below 4MB -/
theorem pagetype_eq {i : ℕ} (hi : i < 65536) : pagetype 1 i = false ↔ i < 1024 := by
  rw [pagetype, decide_eq_false_iff_not, pdx_eq, page2pa_toNat (by omega)]
  omega

/-- with memory behind EXTPHYSMEM, the base memory behind page 0 is on the list -/
theorem length_low (hn : 160 ≤ s.npages.toNat) (hn' : s.npages.toNat ≤ 65536) :
    159 ≤ ((initFree s).filter fun i => pagetype 1 i = false).length := by
  have hsub : List.range' 1 159 ⊆ (initFree s).filter fun i => pagetype 1 i = false := fun i hi => by
    rw [List.mem_range'_1] at hi
    rw [List.mem_filter, decide_eq_true_eq, mem_initFree, managed_iff (by omega), pagetype_eq (by omega)]
    omega
  simpa using ((List.nodup_range' 1).subperm hsub).length_le

theorem memInitChecked_booted (h0 : s.nextfree = 0#32) (hl : s.pageFreeList = none) (hk : KernelEnd kend)
    (hrun : (memInitChecked kend).run s = .ok ((), t)) : ∃ low high, Booted t low high := by
  obtain ⟨v, hv, hn, hpass, hch⟩ := memInitChecked_ok h0 hl hk hrun
  obtain ⟨hf, hlo, -, href, -⟩ := memInitBoot_ok h0 hl hk hv
  have ho := boot_onlySelf hk hf
  obtain ⟨hge, hle, hal⟩ := hk.toNat
  obtain ⟨hadd, hsum, hnext⟩ := hf.toNat hk
  set b := s.boot (roundup kend pgsize) with hb
  have hx : St.Fixed b t := hlo.toFixed.trans hch.toFixed
  have hbn : b.npages = s.npages := St.boot_npages ..
  have hmem : ∀ p, p ∈ lowFirst 1 (initFree b) ↔ Managed b p := fun p => mem_lowFirst.trans mem_initFree
  have hlt : ∀ p, Managed b p → p < 65536 := fun p hp => by
    have := hp.1
    rw [hbn] at this
    omega
  -- some page of the list lies behind EXTPHYSMEM
  have h257 : 160 ≤ b.npages.toNat := by
    obtain ⟨p, hp, hext⟩ := hpass.extmem
    have hp65 := hlt p (mem_initFree.1 hp)
    have := (mem_initFree.1 hp).1
    rw [BitVec.lt_def, page2pa_toNat (by omega)] at hext
    have hext' : extphysmem.toNat = 0x100000 := rfl
    omega
  have hdirmem : ∀ d, t.mem t.dir d = b.mem b.dir d := fun d => by
    rw [hx.dir, hch.mem b.dir fun p hp e => ?_, hlo.mem]
    have hp65 := hlt p (mem_initFree.1 hp)
    rw [Nat.mod_eq_of_lt (by omega)] at e
    exact ho.dir_reserved (e ▸ mem_initFree.1 hp)
  refine ⟨_, _, ⟨?_, hch.list, ?_, ?_, ?_, ?_, ?_, ?_,
    length_low h257 (by rw [hbn]; exact hn), ?_, ?_⟩⟩
  · rw [hx.npages, hbn]
    exact hn
  · intro p hp
    rw [hx.npages]
    exact ((hmem p).1 hp).1
  · intro hd
    rw [hx.dir] at hd
    exact ho.dir_reserved ((hmem _).1 hd)
  · intro p hp
    rw [hch.ref]
    exact href p ((hmem p).1 hp)
  · rw [hdirmem, selfEntry, hx.kernPgdir]
    exact ho.self
  · intro d hd hw
    rw [hdirmem]
    exact boot_empty s _ hd hw
  · intro p hp
    rw [List.mem_filter, decide_eq_true_eq] at hp
    exact (pagetype_eq (hlt p (mem_initFree.1 hp.1))).1 hp.2
  · have h8 : (s.npages * sizeofPageInfo).toNat = s.npages.toNat * 8 := by
      rw [BitVec.toNat_mul]
      change s.npages.toNat * 8 % 2 ^ 32 = _
      omega
    have hkb : kernbase.toNat = 0xF0000000 := rfl
    have h4 : (kernbase + 0x400000#32).toNat = 0xF0400000 := by decide
    rw [hbn] at h257
    rw [hx.pagesVa, hb, boot_pagesVa]
    refine ⟨?_, ?_, ?_⟩
    · rw [BitVec.le_def, hadd, hkb]
      omega
    · rw [BitVec.lt_def, hadd, h4]
      omega
    · rw [hadd]
      omega
  · intro e
    rw [hx.nextfree] at e
    rw [e] at hnext
    have hz : (0#32).toNat = 0 := rfl
    omega

/-! ## Up to check_kern_pgdir -/

theorem Booted.ready {p : Fin 3 → ℕ} {l : List ℕ} (h : Booted t (p 0 :: p 1 :: p 2 :: l) high) :
    Ready t p (l ++ high) := by
  refine ready_of_list (by simp) h.npages_le h.list h.lt h.dir h.ref ?_
  intro i
  have hi := i.isLt
  exact h.empty i (by omega) (by omega)

/-- a self-test that gives its pages back -/
theorem Booted.quiet {l low' : List ℕ} (h : Booted t low high) (hq : Quiet l t u) (hl : ∀ q ∈ l, q ∈ low)
    (hlist : FreeList u (low' ++ high)) (hperm : low'.Perm low) : Booted u low' high := by
  have hmem : ∀ q, q ∈ low' ++ high → q ∈ low ++ high := fun q hq => by
    rw [List.mem_append] at hq ⊢
    exact hq.imp_left hperm.mem_iff.1
  have hdir : ∀ d, u.mem u.dir d = t.mem t.dir d := fun d => by
    rw [hq.toFixed.dir]
    exact hq.mem _ _ fun hd => h.dir (List.mem_append_left _ (hl _ hd))
  refine ⟨?_, hlist, ?_, ?_, ?_, ?_, ?_,
    fun q hq' => h.below q (hperm.mem_iff.1 hq'), hperm.length_eq ▸ h.enough, ?_, ?_⟩
  · rw [hq.npages]
    exact h.npages_le
  · intro q hq'
    rw [hq.npages]
    exact h.lt q (hmem q hq')
  · intro hd
    rw [hq.toFixed.dir] at hd
    exact h.dir (hmem _ hd)
  · intro q hq'
    rw [hq.ref]
    exact h.ref q (hmem q hq')
  · rw [hdir, selfEntry, hq.kernPgdir]
    exact h.self
  · intro d hd hw
    rw [hdir]
    exact h.empty d hd hw
  · rw [hq.pagesVa]
    exact h.pagesVa
  · rw [hq.nextfree]
    exact h.nextfree

theorem Booted.tables (h : Booted t low high) : Tables t (low ++ high) :=
  emptyTables h.npages_le h.list h.lt h.dir h.self (tbl_none_of_empty h.empty)

theorem Booted.npages_pos (h : Booted t low high) : 1 ≤ t.npages.toNat := by
  have henough := h.enough
  obtain ⟨q, hq⟩ := List.exists_mem_of_length_pos (l := low) (by omega)
  exact Nat.one_le_of_lt (h.lt q (List.mem_append_left _ hq))

/-- the self-tests pass and put the list back, and the three calls of boot_map_region find their page tables -/
theorem memInitVm_run (h : Booted t low high) (hb : KernAddr bootstack) :
    ∃ v u low' m, Quiet low t v ∧ low'.Perm low ∧ Booted v low' high ∧
      Rounds v (low' ++ high) (kernRounds v bootstack) u m ∧ (memInitVm bootstack).run t = .ok ((), u) := by
  have henough := h.enough
  obtain ⟨p, l, rfl⟩ := exists_three (l := low) (by omega)
  have hp : ∀ q ∈ List.ofFn p, q ∈ p 0 :: p 1 :: p 2 :: l := fun q hq => by
    obtain ⟨j, rfl⟩ := mem_three.1 hq
    fin_cases j <;> simp
  have hva : t.pagesVa ≠ 0#32 := fun e => by
    have := h.pagesVa.ge
    rw [e] at this
    exact absurd this (by decide)
  obtain ⟨⟨⟩, t1, r1, hq1, hl1⟩ := checkPageAlloc_run h.ready hva
  have h1 := h.quiet hq1 hp hl1 (List.Perm.refl _)
  obtain ⟨⟨⟩, t2, r2, hq2, hl2⟩ := checkPage_run h1.ready
  have hperm : (p 2 :: p 1 :: p 0 :: l).Perm (p 0 :: p 1 :: p 2 :: l) :=
    (List.reverse_perm [p 0, p 1, p 2]).append_right l
  have h2 := h1.quiet hq2 hp hl2 hperm
  have hlen : 66 ≤ (p 2 :: p 1 :: p 0 :: l ++ high).length := by
    have := h2.enough
    rw [List.length_append]
    omega
  obtain ⟨u, m, r3, hr⟩ := memInitMap_run h2.tables h2.pagesVa.ge hb.ge (absent_le hlen)
  have r4 := checkKernPgdir_run h2.tables h2.npages_pos h2.pagesVa hb hr h2.empty
  refine ⟨t2, u, _, m, ?_, hperm, h2, hr, ?_⟩
  · have hq : Quiet (p 0 :: p 1 :: p 2 :: l) t t :=
      ⟨St.Fixed.refl t, rfl, fun _ _ => rfl, fun _ _ _ => rfl, [], (List.append_nil _).symm, fun q hq => by cases hq⟩
    exact (hq.trans hq1 hp).trans hq2 hp
  · rw [memInitVm, Prog.run_bind r1, Prog.run_bind r2, Prog.run_bind r3, r4]

/-- **Boot-time page tables.** When check_page_free_list(1) has returned, mem_init gets up to lcr3: no call of pgdir_walk
in boot_map_region returns NULL, and every page handed out on the way lies below 4MB. -/
theorem boot_pages_low (kend bootstack : Word) (s t : St) (h0 : s.nextfree = 0#32) (hl : s.pageFreeList = none)
    (hk : KernelEnd (roundup kend pgsize)) (hb : KernAddr bootstack) (hrun : (memInitChecked kend).run s = .ok ((), t)) :
    ∃ u, (memInitVm bootstack).run t = .ok ((), u) ∧
      ∃ as, allocs u.log = allocs t.log ++ as ∧ ∀ p ∈ as, page2pa p < 4 * 1024 * 1024 := by
  rw [← memInitChecked_congr (roundup_roundup kend)] at hrun
  obtain ⟨low, high, h⟩ := memInitChecked_booted h0 hl hk hrun
  obtain ⟨v, u, low', m, hq, hperm, h2, hr, hvm⟩ := memInitVm_run h hb
  have hbelow : ∀ q ∈ low, page2pa q < 4 * 1024 * 1024 := fun q hq => by
    have h1 := h.below q hq
    have h4 : (4 * 1024 * 1024 : Word).toNat = 4194304 := by decide
    rw [BitVec.lt_def, page2pa_toNat (by omega), h4]
    omega
  obtain ⟨as, ha, hal⟩ := hq.log
  obtain ⟨k, hkl, hka, hkc⟩ := hr.taken h2.tables fun r hr =>
    ⟨(kernRounds_mem h2.npages_le bootstack hr).2.1, (kernRounds_mem h2.npages_le bootstack hr).1⟩
  refine ⟨u, hvm, as ++ k, by rw [hka, ha, List.append_assoc], fun q hq => ?_⟩
  rcases List.mem_append.1 hq with hq | hq
  · exact hbelow q (hal q hq)
  · -- at most 66 pages are taken from the front of the list, where the 159 low ones are
    have hle : absent kernTables v ≤ 66 := le_trans (Finset.card_filter_le _ _) (le_of_eq kernTables_card)
    have henough := h2.enough
    have hsub : k <+: low' := List.prefix_of_prefix_length_le ⟨m, hkl.symm⟩ (List.prefix_append low' high) (by omega)
    exact hbelow q (hperm.mem_iff.1 (hsub.subset hq))

/-- the machine of 512 pages -/
theorem boot_pages_low_640 : ∃ t u, (memInitChecked 0xF0117123#32).run (coldSt.detect cmos640) = .ok ((), t) ∧
    (memInitVm 0xF0110000#32).run t = .ok ((), u) ∧
    ∃ as, allocs u.log = allocs t.log ++ as ∧ ∀ p ∈ as, page2pa p < 4 * 1024 * 1024 := by
  have hk : KernelEnd 0xF0117123#32 := ⟨by decide, by decide⟩
  obtain ⟨t, ht⟩ := memInitChecked_run (s := coldSt.detect cmos640) rfl rfl hk
    ⟨by decide, by decide⟩ (by decide) (by rw [St.boot_nextfree]; decide)
  obtain ⟨u, hu, has⟩ := boot_pages_low 0xF0117123#32 0xF0110000#32 _ t rfl rfl ⟨by decide, by decide⟩
    ⟨by decide, by decide, by decide⟩ ht
  exact ⟨t, u, ht, hu, has⟩

end Booted

end Jos
