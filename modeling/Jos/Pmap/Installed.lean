/-
check_page_installed_pgdir of kern/pmap.c, and the loads and stores of the processor.

After lcr3 an access goes through the page tables that cr3 names: `mmuFrame` is the frame it reaches, or a page fault. The
TLB is left out: every entry this test changes is invalidated at once. The rest of the free list stays in place behind the
three pages. Result:
- `checkPageInstalledPgdir_run`: the test passes, and leaves its pages at the front of the list, page 0 first.
-/
import Jos.Pmap.SelfTest

namespace Jos

open Jos.Lib

/-! ## The processor -/

/-- the frame that an access of the kernel at va reaches, with CR0_WP set -/
def mmuFrame (write : Bool) (va : Word) : K ℕ := do
  let s ← get
  match mmu s.mem (pgnum s.cr3) (pgnum va) with
  | some (f, perm) => if write = true ∧ perm &&& pteW = 0#32 then throw (.pageFault va) else return f
  | none => throw (.pageFault va)

/-- `*(uint32_t *) va` -/
def ldVa (va : Word) : K Word := do ldw ⟨← mmuFrame false va, va.toNat % 4096 / 4⟩

/-- `*(uint32_t *) va = v` -/
def stVa (va v : Word) : K Unit := do stw ⟨← mmuFrame true va, va.toNat % 4096 / 4⟩ v

/-! ## The function -/

/-- check_page_installed_pgdir: pp1 and pp2 are mapped at PGSIZE, one after the other -/
def checkInstalledMap (pp0 pp1 pp2 : ℕ) : K Unit := do
  let pgdir := (← get).kernPgdir
  pageFree pp0
  memset (← page2kva pp1) 1 nptentries
  memset (← page2kva pp2) 2 nptentries
  let _ ← pageInsert pgdir pp1 pgsize pteW
  kassert "pp1->pp_ref == 1" ((← ldRef pp1) = 1#16)
  kassert "*(uint32_t *)PGSIZE == 0x01010101U" ((← ldVa pgsize) = 0x01010101#32)
  let _ ← pageInsert pgdir pp2 pgsize pteW
  kassert "*(uint32_t *)PGSIZE == 0x02020202U" ((← ldVa pgsize) = 0x02020202#32)
  kassert "pp2->pp_ref == 1" ((← ldRef pp2) = 1#16)
  kassert "pp1->pp_ref == 0" ((← ldRef pp1) = 0#16)
  stVa pgsize 0x03030303#32
  kassert "*(uint32_t *)page2kva(pp2) == 0x03030303U" ((← ldw ⟨frameOf (← page2kva pp2), 0⟩) = 0x03030303#32)
  pageRemove pgdir pgsize
  kassert "pp2->pp_ref == 0" ((← ldRef pp2) = 0#16)

def checkPageInstalledPgdir : K Unit := do
  let pp0 ← assertAlloc "(pp0 = page_alloc(0))" 0#32
  let pp1 ← assertAlloc "(pp1 = page_alloc(0))" 0#32
  let pp2 ← assertAlloc "(pp2 = page_alloc(0))" 0#32
  checkInstalledMap pp0 pp1 pp2
  let pgdir := (← get).kernPgdir
  kassert "PTE_ADDR(kern_pgdir[0]) == page2pa(pp0)" (pteAddr (← ldw ⟨frameOf pgdir, 0⟩) = page2pa pp0)
  stw ⟨frameOf pgdir, 0⟩ 0#32
  kassert "pp0->pp_ref == 1" ((← ldRef pp0) = 1#16)
  stRef pp0 0#16
  pageFree pp0

/-! ## On the view -/

section Installed

variable {o s : St} {p : Fin 3 → ℕ} {rest : List ℕ} {v : View}

theorem mmu_eq {m : Mem} {dir n f : ℕ} (hf : tbl m dir (n / 1024) = some f) (hp : present (m f (n % 1024))) :
    mmu m dir n = some (pgnum (m f (n % 1024)), m dir (n / 1024) &&& m f (n % 1024) &&& permMask) := by
  rw [mmu, xlat_of_tbl hf, if_pos hp]
  rfl

/-- an access below 4MB reaches the page that the view maps there -/
theorem Shows.run_mmuFrame (hp : Three o p) (h : Shows o p rest s v) (hcr3 : pgnum o.cr3 = o.dir) (hd : v.dir 0 = true)
    {va : Word} (h0 : pdx va = 0) {i : Fin 2} (hi : ptx va = i) {k : Fin 3} (he : v.pte i = some (k, pteW)) (write : Bool) :
    (mmuFrame write va).run s = .ok (p k, s) := by
  have hperm : pteW.toNat < 4096 := by decide
  have hw := h.pte hd i
  rw [he] at hw
  have htbl := (h.found hp (i := 0) h0 hd).1
  rw [← St.dir.eq_def, pdx_pgnum] at htbl
  rw [ptx_pgnum] at hi
  have hpres : present (s.mem (p 0) (pgnum va % 1024)) := by
    rw [hi, hw]
    exact present_entry _ _
  have hdir : s.mem o.dir (pgnum va / 1024) = tableEntry (p 0) := by
    have h1 := h.dir 0
    rw [if_pos hd] at h1
    rw [← pdx_pgnum, h0]
    exact h1
  have hmmu := mmu_eq htbl hpres
  rw [hdir, hi, hw, hp.pgnum_pte hperm] at hmmu
  -- both entries have PTE_W
  have hA : tableEntry (p 0) &&& pteW = pteW := by
    rw [and_flag _ _ (by decide), tableEntry_low (hp.lt_page 0)]
    decide
  have hB : pteWord p (some (k, pteW)) &&& pteW = pteW := (pte_flag (by decide) (by decide)).trans (by decide)
  have hM : permMask &&& pteW = pteW := by decide
  have hwrite : tableEntry (p 0) &&& pteWord p (some (k, pteW)) &&& permMask &&& pteW ≠ 0#32 := by
    rw [BitVec.and_assoc, hM, BitVec.and_assoc, hB, hA]
    decide
  rw [mmuFrame, Prog.run_bind (run_get s), h.fixed.cr3, hcr3, hmmu]
  exact congrFun (congrArg StateT.run (if_neg fun hc => hwrite hc.2)) s

theorem Shows.run_ldVa (hp : Three o p) (h : Shows o p rest s v) (hcr3 : pgnum o.cr3 = o.dir) (hd : v.dir 0 = true)
    {va : Word} (h0 : pdx va = 0) {i : Fin 2} (hi : ptx va = i) {k : Fin 3} (he : v.pte i = some (k, pteW)) {w : Word}
    (hw : v.body k = some w) : (ldVa va).run s = .ok (w, s) := by
  have hidx : va.toNat % 4096 / 4 < nptentries := by
    change _ < 1024
    omega
  rw [ldVa, Prog.run_bind (h.run_mmuFrame hp hcr3 hd h0 hi he false), run_ldw, h.body k w hw _ hidx]

/-- a store into page j, which is not the page table -/
theorem Shows.storePage (hp : Three o p) (h : Shows o p rest s v) {j : Fin 3} (hj : j ≠ 0) (i : ℕ) (w : Word) :
    Shows o p rest (s.emit (.store (p j) i w)) (v.touch j) where
  fixed := h.fixed.trans (St.fixed_emit ..)
  list := h.list.congr rfl (by simp)
  sep := h.sep
  link := h.link
  ref := h.ref
  dir := fun d => by
    rw [View.touch_dir, ← h.dir d]
    simp [Ev.mem, Mem.set, (hp.ne_dir j).symm]
  pte := fun hd d => by
    have hne : p 0 ≠ p j := hp.inj.ne hj.symm
    simpa [Ev.mem, Mem.set, hne] using h.pte hd d
  body := fun k w' hb d hd => by
    by_cases hk : k = j
    · rw [hk, View.touch_body, Function.update_self] at hb
      cases hb
    · rw [View.touch_body, Function.update_of_ne hk] at hb
      have hne : p k ≠ p j := hp.inj.ne hk
      simpa [Ev.mem, Mem.set, hne] using h.body k w' hb d hd
  pages := h.pages
  mem := fun f d hf hd => by
    rw [← h.mem f d hf hd]
    simp [Ev.mem, Mem.set, hf j]
  log := by
    obtain ⟨as, ha, hm⟩ := h.log
    exact ⟨as, by rw [St.emit_log, allocs_append, ha]; exact List.append_nil _, hm⟩

theorem checkInstalledMap_run (hp : Three o p) (h : Shows o p rest s held) (hcr3 : pgnum o.cr3 = o.dir) :
    Ends (checkInstalledMap (p 0) (p 1) (p 2)) s fun _ t => Shows o p rest t unmappedFree := by
  have hdir : pdx pgsize = 0 := by decide
  have hkva : ∀ {t : St} (j : Fin 3), St.Fixed o t → (page2kva (p j)).run t = .ok (page2pa (p j) + kernbase, t) :=
    fun j hx => run_page2kva (by rw [hx.npages]; exact hp.lt j)
  have hframe : ∀ j, frameOf (page2pa (p j) + kernbase) = p j := fun j => frameOf_page2kva (hp.lt_page j)
  refine .bind (run_get s) ?_
  rw [h.fixed.kernPgdir]
  obtain ⟨s1, r1, h1⟩ := h.run_free hp (j := 0) rfl (by decide)
  refine .bind r1 (.bind (hkva 1 h1.fixed) (.bind (run_memset ..) ?_))
  rw [hframe]
  have h2 := h1.fill hp 1 (Or.inl rfl) (byteWord (1 &&& 0xFF))
  refine .bind (hkva 2 h2.fixed) (.bind (run_memset ..) ?_)
  rw [hframe]
  have h3 := h2.fill hp 2 (Or.inl rfl) (byteWord (2 &&& 0xFF))
  -- page 1 is mapped, with page 0 as the page table
  obtain ⟨s4, r4, h4⟩ := h3.run_insert_new hp rfl rfl pgsize hdir (i := 1) (by decide) 1 pteW
  refine .bind r4 (.bind (h4.run_ldRef 1) (.assert (by decide) ?_))
  refine .bind (h4.run_ldVa hp hcr3 rfl hdir (i := 1) (by decide) rfl (w := byteWord (1 &&& 0xFF)) (by decide))
    (.assert (by decide) ?_)
  -- page 2 replaces it
  obtain ⟨s5, r5, h5⟩ := h4.run_insert hp rfl pgsize hdir (i := 1) (by decide) (by decide) 2 pteW
  refine .bind r5 (.bind (h5.run_ldVa hp hcr3 rfl hdir (i := 1) (by decide) (k := 2) (by decide)
    (w := byteWord (2 &&& 0xFF)) (by decide)) (.assert (by decide) ?_))
  refine .bind (h5.run_ldRef 2) (.assert (by decide) (.bind (h5.run_ldRef 1) (.assert (by decide) ?_)))
  have hst : (stVa pgsize 0x03030303#32).run s5 = .ok ((), s5.emit (.store (p 2) 0 0x03030303#32)) := by
    rw [stVa, Prog.run_bind (h5.run_mmuFrame hp hcr3 rfl hdir (i := 1) (by decide) (k := 2) (by decide) true)]
    rfl
  have h6 := h5.storePage hp (j := 2) (by decide) 0 0x03030303#32
  refine .bind hst (.bind (hkva 2 h6.fixed) (.bind (run_ldw ..) (.assert ?_ ?_)))
  · rw [hframe]
    simp [Ev.mem, Mem.set]
  · obtain ⟨s7, r7, h7⟩ := h6.run_remove hp rfl pgsize hdir (i := 1) (by decide) (by decide)
    refine .bind r7 (.bind (h7.run_ldRef 2) (.of_run (run_kassert s7 (by decide)) ?_))
    exact h7.forget.congr (by decide)

/-- **check_page_installed_pgdir** passes, and gives its pages back. -/
theorem checkPageInstalledPgdir_run (hr : Ready o p rest) (hcr3 : pgnum o.cr3 = o.dir) :
    Ends checkPageInstalledPgdir o fun _ t =>
      Quiet (List.ofFn p) o t ∧ FreeList t (p 0 :: p 2 :: p 1 :: rest) := by
  have hp := hr.toThree
  have hz : 0#32 &&& allocZero = 0#32 := by decide
  refine .bind (run_assertAlloc (run_pageAlloc_some hr.list.head hz)) ?_
  refine .bind (run_assertAlloc (run_pageAlloc_some hr.list.pop.head hz)) ?_
  refine .bind (run_assertAlloc (run_pageAlloc_some hr.list.pop.pop.head hz)) ?_
  refine .seq (checkInstalledMap_run hp hr.shows.2 hcr3) fun _ s1 h1 => .bind (run_get s1) ?_
  rw [h1.fixed.kernPgdir]
  refine .bind (h1.run_ldDir 0) (.assert (pteAddr_tableEntry (hp.lt_page 0)) ?_)
  have h2 := h1.clearDir hp 0
  refine .bind (run_stw s1 _ _) (.bind (h2.run_ldRef 0) (.assert (by decide) ?_))
  obtain ⟨s3, r3, h3⟩ := (h2.setRef hp 0 0#16).run_free hp (j := 0) rfl (by decide)
  refine .bind (run_stRef _ _ _) (.of_run r3 ⟨h3.quiet hr (by decide) (by decide), h3.list⟩)

end Installed

end Jos
