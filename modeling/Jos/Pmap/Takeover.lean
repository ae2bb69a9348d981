/-
The kernel half of the address space, from entry_pgdir to kern_pgdir and in every state after that.

Until lcr3 in mem_init the kernel runs on the tables of entry.S; afterwards on kern_pgdir, which the calls for user pages
go on changing. `KernelHalf` says what the hardware and the walk find from UTOP on. Results:
- `install_quiet`: loading cr3 and the two checks after it write free pages only;
- `memInit_kernelHalf`: mem_init ends with the memory map of the kernel installed, and with nothing else;
- `KernelHalf.step`: a legal operation keeps the directory entries and the translations from UTOP on;
- `kernel_half_kept`: so does every legal run; the addresses on which the kernel was started mean the same memory all along,
  and the first 4MB, which entry.S mapped for itself, are gone.
-/
import Jos.Boot.Entry
import Jos.Pmap.Isolation

namespace Jos

open Jos.Lib

/-- what the address space holds from UTOP on, with kern_pgdir installed -/
structure KernelHalf (bootstack : Word) (s : St) : Prop where
  consistent : Consistent s
  cr3 : pgnum s.cr3 = s.dir
  tables : ∀ d ∈ kernTables, ∃ p < 1048576, s.mem s.dir d = tableEntry p
  map : ∀ va, utop ≤ va → pdx va ≠ 957 → translate s va = kernelMap s bootstack va

section Half

variable {s t : St} {bootstack : Word}

/-- outside the UVPT window the walk is read off the map of all pages -/
theorem translate_of_userMap {va : Word} (hw : pdx va ≠ 957) :
    translate s va = (userMap s (pgnum va)).map (atOffset va) := by
  rw [pdx_pgnum] at hw
  rw [translate, hwWalk, userMap, if_pos ⟨pgnum_lt va, hw⟩]

theorem kernelMap_fixed (h : St.Fixed s t) (va : Word) : kernelMap t bootstack va = kernelMap s bootstack va := by
  rw [kernelMap, kernelMap, h.npages, h.pagesVa]

/-- what the MMU finds at KERNBASE and above -/
theorem KernelHalf.mmu_kernbase (h : KernelHalf bootstack s) {n : ℕ} (hlo : 983040 ≤ n) (hhi : n < 1048576) :
    mmu s.mem (pgnum s.cr3) n = some (n - 983040, pteP ||| pteW) := by
  have hva : pgnum (page2pa n) = n := pgnum_page2pa hhi
  have hnat : (page2pa n).toNat = n * 4096 := page2pa_toNat hhi
  have hle : utop ≤ page2pa n := by
    change 0xEEC00000 ≤ (page2pa n).toNat
    omega
  have hw : pdx (page2pa n) ≠ 957 := by
    rw [pdx_pgnum, hva]
    omega
  have hmap := h.map (page2pa n) hle hw
  rw [kernelMap_eq h.consistent.npages_le, hva, if_pos hlo, translate, hwWalk, hva, Option.map_map] at hmap
  obtain ⟨e, he, hat⟩ := Option.map_eq_some_iff.1 hmap
  have hpa : pteAddr e + (page2pa n &&& 0xFFF#32) = page2pa n - kernbase := (Prod.ext_iff.1 hat).1
  have hperm : e &&& 0xFFF#32 = pteW ||| pteP := (Prod.ext_iff.1 hat).2
  have hframe : pgnum e = n - 983040 := by
    have hoff : page2pa n &&& 0xFFF#32 = 0#32 := by
      apply BitVec.eq_of_toNat_eq
      rw [low_toNat, hnat]
      change n * 4096 % 4096 = 0
      omega
    have hsub : (page2pa n - kernbase).toNat = n * 4096 - 4026531840 := by
      have hbase : kernbase ≤ page2pa n := by
        change 4026531840 ≤ (page2pa n).toNat
        omega
      rw [BitVec.toNat_sub_of_le hbase, hnat]
      rfl
    rw [hoff, BitVec.add_zero] at hpa
    rw [← pgnum_pteAddr, hpa, pgnum_eq, hsub]
    omega
  obtain ⟨p, hp, hdir⟩ := h.tables (n / 1024) (mem_kernTables.2 (by omega))
  have hbits : tableEntry p &&& e &&& permMask = pteP ||| pteW :=
    calc tableEntry p &&& e &&& permMask
        = (tableEntry p &&& 0xFFF#32) &&& (e &&& 0xFFF#32) &&& permMask := by
          have hmask : 0xFFF#32 &&& permMask = permMask := by decide
          rw [← hmask]
          ac_rfl
      _ = 7#32 &&& (pteW ||| pteP) &&& permMask := by rw [tableEntry_low hp, hperm]
      _ = pteP ||| pteW := by decide
  rw [mmu, h.cr3, he, Option.map_some, hdir, hbits, hframe]

/-! ## One step -/

theorem Walked.dir_kept {l m : List ℕ} {va : Word} {f d : ℕ} (h : Walked s l va t m f) (ht : Tables s l)
    (hd : d ≠ pdx va) : t.mem t.dir d = s.mem s.dir d := by
  cases h with
  | found => rfl
  | made ha hl =>
    subst hl
    rw [(s.fixed_linkTable ..).dir, St.linkTable_mem, linkMem_dir ht, if_neg hd]

/-- an address below UTOP has its directory entry below those of the kernel -/
theorem pdx_ne_kernel {va : Word} (hva : va < utop) {d : ℕ} (hd : d ∈ kernTables) : d ≠ pdx va := by
  have hlt := pgnum_lt_utop hva
  have hge := mem_kernTables.1 hd
  rw [pdx_pgnum]
  omega

/-- **A legal operation leaves the directory entries of the kernel alone.** -/
theorem step_dir_kept (h : Consistent s) {o : Op} (hl : Legal Managed s o) (hrun : step o s = .ok t) {d : ℕ}
    (hd : d ∈ kernTables) : t.mem t.dir d = s.mem s.dir d := by
  obtain ⟨l, hi⟩ := h.inv
  have hT := hi.tables
  cases o with
  | alloc fl =>
    rcases alloc_cases hi fl with ⟨-, hcall⟩ | ⟨p, m, u, rfl, hcall, hx, -, ⟨hm, -⟩ | ⟨hm, -⟩⟩
    · have hok : step (.alloc fl) s = .ok s := step_ok (by rw [Op.call, Prog.run_bind hcall]; rfl)
      obtain rfl := Except.ok.inj (hok.symm.trans hrun)
      rfl
    · have hok : step (.alloc fl) s = .ok u := step_ok (by rw [Op.call, Prog.run_bind hcall]; rfl)
      obtain rfl := Except.ok.inj (hok.symm.trans hrun)
      rw [hm, hx.dir]
    · have hok : step (.alloc fl) s = .ok u := step_ok (by rw [Op.call, Prog.run_bind hcall]; rfl)
      obtain rfl := Except.ok.inj (hok.symm.trans hrun)
      have hne : s.dir ≠ p := free_head_ne_dir hT
      rw [hm, hx.dir]
      simp [Mem.fill, hne]
  | free pp =>
    obtain ⟨hm, hf, hr⟩ := hl
    rw [onFreeList_iff hi.chain] at hf
    have hok : step (.free pp) s = .ok _ := step_ok (run_pageFree hr (hi.link_none pp hm hf))
    obtain rfl := Except.ok.inj (hok.symm.trans hrun)
    rfl
  | insert pp va perm =>
    obtain ⟨hp, hf, hr, hva, hperm⟩ := hl
    rw [onFreeList_iff hi.chain] at hf
    rcases insert_cases hi (owns_managed s _) (pgnum_lt_utop hva) hp hf (Or.inl hr) hperm with
      ⟨-, -, hcall⟩ | ⟨u, m, f, m', hwk, hiu, hcall, -⟩
    · have hok : step (.insert pp va perm) s = .ok s :=
        step_ok (by rw [Op.call, Prog.run_bind (run_get s), Prog.run_bind hcall]; rfl)
      obtain rfl := Except.ok.inj (hok.symm.trans hrun)
      rfl
    · have hok : step (.insert pp va perm) s = .ok (u.insert f (ptx va) pp va perm) :=
        step_ok (by rw [Op.call, Prog.run_bind (run_get s), Prog.run_bind hcall]; rfl)
      obtain rfl := Except.ok.inj (hok.symm.trans hrun)
      -- the entry is stored in a page table, which is not the directory
      have hne : u.dir ≠ f := (hiu.tables.tbl_dir _ _ (pdx_lt va) (pdx_ne_window hva) (hwk.tbl hT)).symm
      rw [← hwk.dir_kept hT (pdx_ne_kernel hva hd), (St.fixed_insert ..).dir, St.insert_mem]
      simp [Mem.set, hne]
  | remove va =>
    rcases remove_cases hi (owns_managed s _) (pgnum_lt_utop hl) with ⟨-, hcall⟩ | ⟨f, q, m, hf, -, hcall, -⟩
    · have hok : step (.remove va) s = .ok s := step_ok (by rw [Op.call, Prog.run_bind (run_get s), hcall])
      obtain rfl := Except.ok.inj (hok.symm.trans hrun)
      rfl
    · have hok : step (.remove va) s = .ok (s.unmap f (ptx va) q va) :=
        step_ok (by rw [Op.call, Prog.run_bind (run_get s), hcall])
      obtain rfl := Except.ok.inj (hok.symm.trans hrun)
      have hne : s.dir ≠ f := (hT.tbl_dir _ _ (pdx_lt va) (pdx_ne_window hl) hf).symm
      rw [(s.fixed_unmap ..).dir, St.unmap_mem]
      simp [Mem.set, hne]
  | walk va create =>
    rcases hT.walk_cases (pdx_ne_window hl) create with ⟨-, -, hcall⟩ | ⟨u, m, f, hwk, -, hcall⟩
    · have hok : step (.walk va create) s = .ok s :=
        step_ok (by rw [Op.call, Prog.run_bind (run_get s), Prog.run_bind hcall]; rfl)
      obtain rfl := Except.ok.inj (hok.symm.trans hrun)
      rfl
    · have hok : step (.walk va create) s = .ok u :=
        step_ok (by rw [Op.call, Prog.run_bind (run_get s), Prog.run_bind hcall]; rfl)
      obtain rfl := Except.ok.inj (hok.symm.trans hrun)
      exact hwk.dir_kept hT (pdx_ne_kernel hl hd)

theorem step_fixed (h : Consistent s) {o : Op} (hl : Legal Managed s o) (hrun : step o s = .ok t) : St.Fixed s t := by
  obtain ⟨l, hi⟩ := h.inv
  obtain ⟨t', -, ht', hx, -⟩ := step_inv hi (owns_managed s _) (fun _ hp => hp) o hl
  obtain rfl := Except.ok.inj (hrun.symm.trans ht')
  exact hx

/-- **One step.** -/
theorem KernelHalf.step (h : KernelHalf bootstack s) {o : Op} (hl : Legal Managed s o) :
    ∃ t, Jos.step o s = .ok t ∧ KernelHalf bootstack t := by
  obtain ⟨t, ht, hc, hm⟩ := step_refines h.consistent hl
  have hx := step_fixed h.consistent hl ht
  refine ⟨t, ht, hc, ?_, ?_, ?_⟩
  · rw [hx.cr3, hx.dir]
    exact h.cr3
  · intro d hd
    rw [step_dir_kept h.consistent hl ht hd]
    exact h.tables d hd
  · intro va hva hw
    have habove : userMap t (pgnum va) = userMap s (pgnum va) := hm.above hl (by
      rw [← pgnum_utop]
      exact pgnum_le hva)
    rw [kernelMap_fixed hx, ← h.map va hva hw, translate_of_userMap hw, translate_of_userMap hw, habove]

end Half

/-! ## mem_init -/

section MemInit

variable {s t u : St} {bootstack kend : Word} {m low high : List ℕ}

/-- lcr3, check_page_free_list(0) and check_page_installed_pgdir write free pages only -/
theorem install_quiet {own : ℕ → Prop} {extra : ℕ → ℕ} (hi : Inv own extra u m) (hn : u.nextfree ≠ 0#32)
    (hlen : 3 ≤ m.length) (hdir : ∀ i : Fin 2, u.mem u.dir i = 0#32)
    (hrun : (do lcr3 (u.kernPgdir - kernbase); checkPageFreeList kend false; checkPageInstalledPgdir : K Unit).run u =
      .ok ((), t)) : Quiet m ((u.setCr3 (u.kernPgdir - kernbase)).emit (.lcr3 (u.kernPgdir - kernbase))) t := by
  have hiw := hi.setCr3 (u.kernPgdir - kernbase)
  have hTw := hiw.tables
  obtain ⟨x, hx, hiff⟩ := checkPageFreeList_iff kend false hiw.chain hTw.free_lt hn
  have hqx := hx.quiet fun p hp => by
    have h1 := hTw.free_lt p hp
    have h3 := hTw.npages_le
    omega
  have hix := hiw.quiet hqx (fun _ hq => hq) hx.list fun _ => Iff.rfl
  have hTx := hix.tables
  obtain ⟨p, rest, rfl⟩ := exists_three hlen
  have hready : Ready x p rest := by
    refine ready_of_list rfl hTx.npages_le hix.chain hTx.free_lt hTx.dir_free
      (fun q hq => refs_eq_zero.1 (hix.pool.free_ref q hq)) ?_
    intro i
    rw [hx.toFixed.dir, hqx.mem _ _ hTw.dir_free]
    exact hdir i
  obtain ⟨⟨⟩, z, hrz, hqz, -⟩ := checkPageInstalledPgdir_run hready (by
    rw [hx.toFixed.dir, hx.toFixed.cr3]
    rfl)
  have hsub : ∀ q ∈ List.ofFn p, q ∈ p 0 :: p 1 :: p 2 :: rest := fun q hq => by
    obtain ⟨j, rfl⟩ := mem_three.1 hq
    fin_cases j <;> simp
  rw [Prog.run_bind (run_lcr3 u (u.kernPgdir - kernbase))] at hrun
  obtain ⟨⟨⟩, x', h1, h2⟩ := Prog.bind_ok.1 hrun
  obtain ⟨rfl, -⟩ := (hiff () x').1 h1
  obtain rfl : t = z := (Prod.ext_iff.1 (Except.ok.inj (h2.symm.trans hrz))).2
  exact hqx.trans hqz hsub

/-- **What mem_init has installed**: the memory map of the kernel, and no page below it. -/
theorem memInit_kernelHalf (cmos : ℕ → BitVec 8) (h0 : s.nextfree = 0#32) (hl : s.pageFreeList = none)
    (hk : KernelEnd kend) (hb : KernAddr bootstack) (hrun : (memInit cmos kend bootstack).run s = .ok ((), t)) :
    KernelHalf bootstack t ∧ ∀ n, n < 977920 → userMap t n = none := by
  have hiso := memInit_isolated cmos h0 hl hk hb hrun
  rw [run_memInit] at hrun
  obtain ⟨⟨⟩, v, hv, hrun⟩ := Prog.bind_ok.1 hrun
  obtain ⟨low, high, hboot⟩ := memInitChecked_booted (s := s.detect cmos) h0 hl hk hv
  obtain ⟨hc, hdir, -, -⟩ := memInitChecked_consistent (s := s.detect cmos) h0 hl hk hv
  obtain ⟨hge, -⟩ := hk.pgdir hdir
  obtain ⟨w, u, low', m', hqw, -, hw, hr, hvm⟩ := memInitVm_run hboot hb
  obtain ⟨u', k, m, hvm', hxu, hiu, -, -, hlen, -, hempty⟩ := memInitVm_inv hboot hc hb
  obtain rfl : u' = u := (Prod.ext_iff.1 (Except.ok.inj (hvm'.symm.trans hvm))).2
  have hge' : kernbase ≤ u'.kernPgdir := by rw [hxu.kernPgdir]; exact hge
  rw [memInitInstall, Prog.run_bind hvm, Prog.run_bind (run_get u'), Prog.run_bind (run_paddr hge')] at hrun
  have hq := install_quiet hiu (by rw [hxu.nextfree]; exact hboot.nextfree) hlen hempty hrun
  have hT := hw.tables
  have hTu := (hiu.setCr3 (u'.kernPgdir - kernbase)).tables
  have hmap : ∀ va, pdx va ≠ 957 → translate t va = kernelMap t bootstack va := by
    intro va hva
    have hsame : userMap t = userMap u' := hTu.userMap_quiet hq fun _ hq => hq
    have hfix : kernelMap t bootstack va = kernelMap w bootstack va := by
      rw [kernelMap, kernelMap, hq.toFixed.npages, hq.toFixed.pagesVa]
      change kernelMap u' bootstack va = kernelMap w bootstack va
      exact kernelMap_fixed hr.fixed va
    rw [translate_of_userMap hva, hsame, ← translate_of_userMap hva, hfix]
    exact kernel_translate hT hw.pagesVa hb hr hw.empty va hva
  refine ⟨⟨hiso.consistent, hiso.cr3, ?_, fun va _ hva => hmap va hva⟩, ?_⟩
  · intro d hd
    have hlt : d < 1024 := by
      have := mem_kernTables.1 hd
      omega
    obtain ⟨p, hp, hentry⟩ := (kernel_dir hT hw.npages_pos hr hw.empty hlt).1 hd
    have hnp := hT.npages_le
    refine ⟨p, by omega, ?_⟩
    rw [hq.toFixed.dir, hq.mem _ _ hTu.dir_free]
    exact hentry
  · intro n hn
    have hva : pgnum (page2pa n) = n := pgnum_page2pa (by omega)
    have hwin : pdx (page2pa n) ≠ 957 := by
      rw [pdx_pgnum, hva]
      omega
    have hnone : translate t (page2pa n) = none := by
      rw [hmap _ hwin, kernelMap_eq hiso.consistent.npages_le, hva, if_neg (by omega), if_neg (by omega),
        if_neg (by omega)]
    rw [translate_of_userMap hwin, hva] at hnone
    exact Option.map_eq_none_iff.1 hnone

end MemInit

/-! ## Main result -/

/-- **The kernel keeps its addresses.** After mem_init and after any run of legal calls, the MMU finds at KERNBASE and above
what it found on the tables of entry.S as far as these went, physical memory from 0 on, for reading and writing; the walk
finds the memory map of the kernel at every address from UTOP on outside the UVPT window. The pages below UTOP, and with
them the first 4MB, are gone when mem_init returns. -/
theorem kernel_half_kept (cmos : ℕ → BitVec 8) (kend bootstack : Word) (s t : St) (h0 : s.nextfree = 0#32)
    (hl : s.pageFreeList = none) (hk : KernelEnd kend) (hb : KernAddr bootstack)
    (hrun : (memInit cmos kend bootstack).run s = .ok ((), t)) (os : List Op)
    (hlegal : LegalRun step (Legal Managed) t os) :
    (∀ n, n < 977920 → mmu t.mem (pgnum t.cr3) n = none) ∧
    ∃ u, runAll step os t = .ok u ∧
      (∀ n, 983040 ≤ n → n < 1048576 → mmu u.mem (pgnum u.cr3) n = some (n - 983040, pteP ||| pteW)) ∧
      (∀ (L : Layout) (m : Ram), L.Linked → EntryTables m L → ∀ n, n / 1024 = 960 →
        mmu u.mem (pgnum u.cr3) n = mmu (frames m) (pgnum (Layout.reloc L.pgdir)) n) ∧
      ∀ va, utop ≤ va → pdx va ≠ 957 → translate u va = kernelMap t bootstack va := by
  obtain ⟨hhalf, hlow⟩ := memInit_kernelHalf cmos h0 hl hk hb hrun
  refine ⟨?_, ?_⟩
  · intro n hn
    have hnone := hlow n hn
    rw [userMap, if_pos ⟨by omega, by omega⟩] at hnone
    rw [mmu, hhalf.cr3, Option.map_eq_none_iff.1 hnone]
    rfl
  · obtain ⟨u, hu, hend, hfix⟩ := runAll_inv (I := fun u => KernelHalf bootstack u ∧ St.Fixed t u)
      (fun _ _ h hl => by
        obtain ⟨v, hv, hhv⟩ := h.1.step hl
        exact ⟨v, hv, hhv, h.2.trans (step_fixed h.1.consistent hl hv)⟩)
      t os ⟨hhalf, St.Fixed.refl t⟩ hlegal
    refine ⟨u, hu, fun n hlo hhi => hend.mmu_kernbase hlo hhi, ?_, ?_⟩
    · intro L m hL hm n hn
      rw [hend.mmu_kernbase (by omega) (by omega), mmu_entryTables hL hm (by omega), if_neg (by omega), if_pos hn]
    · intro va hva hw
      rw [hend.map va hva hw, kernelMap_fixed hfix]

/-- the machine of 512 pages, with a page and a page table taken, and the tables it was started on -/
theorem kernel_half_kept_640 : ∃ t u, (memInit cmos640 0xF0117123#32 0xF0110000#32).run coldSt = .ok ((), t) ∧
    runAll step [.alloc 0#32, .walk 0x1000#32 true] t = .ok u ∧ mmu t.mem (pgnum t.cr3) 256 = none ∧
    mmu u.mem (pgnum u.cr3) 983296 = some (256, pteP ||| pteW) ∧
    mmu u.mem (pgnum u.cr3) 983296 = mmu (frames (entryRam kernelLayout entryText)) 274 983296 := by
  have hk : KernelEnd 0xF0117123#32 := ⟨by decide, by decide⟩
  have hb : KernAddr 0xF0110000#32 := ⟨by decide, by decide, by decide⟩
  obtain ⟨t, ht⟩ := memInit_run (s := coldSt) cmos640 rfl rfl hk hb ⟨by decide, by decide⟩ (by decide) (by
    rw [St.boot_nextfree]
    decide)
  obtain ⟨hlow, u, hu, hkern, hsame, -⟩ := kernel_half_kept cmos640 0xF0117123#32 0xF0110000#32 coldSt t rfl rfl hk hb ht
    [.alloc 0#32, .walk 0x1000#32 true] ⟨trivial, fun _ _ => ⟨(by decide : 0x1000#32 < utop), fun _ _ => trivial⟩⟩
  exact ⟨t, u, ht, hu, hlow 256 (by decide), hkern 983296 (by decide) (by decide),
    hsame kernelLayout _ kernelLayout_linked (entryRam_tables entryText) 983296 (by decide)⟩

end Jos
