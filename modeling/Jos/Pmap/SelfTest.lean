/-
check_page_alloc and check_page of kern/pmap.c.

Both take three pages off the free list, put the rest of it aside, run assertions about these pages and give everything
back. The assertions are followed on the `View` of the three pages. Results:
- `checkPageAlloc_run`: from any list of at least three pages check_page_alloc passes, and the list is in its old order;
- `checkPage_run`: check_page passes too, and leaves the first three pages of the list in reverse order;
- `Quiet`: in both cases only the frames of these three pages have been written, no counter and no other link has
  changed, and no other page has been handed out;
- `selfTests_neutral`: so one after the other they only reorder the first three pages of the list.
-/
import Jos.Pmap.CheckFreeList
import Jos.Pmap.View

namespace Jos

open Jos.Lib

/-! ## The functions -/

/-- `assert((pp = page_alloc(flags)))` -/
def assertAlloc (x : String) (flags : Word) : K ℕ := do
  match ← pageAlloc flags with
  | some pp => return pp
  | none => panic ("assertion failed: " ++ x)

/-- `assert(!page_alloc(0))` -/
def assertNoPage : K Unit := do kassert "!page_alloc(0)" ((← pageAlloc 0#32) = none)

/-- "should be able to allocate three pages" -/
def allocThree : K (ℕ × ℕ × ℕ) := do
  let pp0 ← assertAlloc "(pp0 = page_alloc(0))" 0#32
  let pp1 ← assertAlloc "(pp1 = page_alloc(0))" 0#32
  let pp2 ← assertAlloc "(pp2 = page_alloc(0))" 0#32
  kassert "pp1 && pp1 != pp0" (pp1 ≠ pp0)
  kassert "pp2 && pp2 != pp1 && pp2 != pp0" (pp2 ≠ pp1 ∧ pp2 ≠ pp0)
  return (pp0, pp1, pp2)

/-- "give free list back", "free the pages we took" -/
def giveBack (fl : Option ℕ) (pp0 pp1 pp2 : ℕ) : K Unit := do
  stFree fl
  pageFree pp0
  pageFree pp1
  pageFree pp2

/-- the loop over the list that starts at pp: d is added for each page -/
def countFree (d : ℤ) : ℕ → Option ℕ → ℤ → K ℤ
  | 0, _, _ => throw .diverge
  | _ + 1, none, nfree => return nfree
  | fuel + 1, some pp, nfree => do countFree d fuel (← ldLink pp) (nfree + d)

/-- `c[i]` -/
def ldByte (c : Word) (i : ℕ) : K (BitVec 8) := do
  return ((← ldw ⟨frameOf c, i / 4⟩) >>> (8 * (i % 4))).setWidth 8

/-- the first n rounds of the loop over the bytes of a page -/
def checkBytes (c : Word) : ℕ → K Unit
  | 0 => return ()
  | i + 1 => do
    checkBytes c i
    kassert "c[i] == 0" ((← ldByte c i) = 0#8)

def checkPageAlloc : K Unit := do
  if (← get).pagesVa = 0#32 then panic "'pages' is a null pointer!"
  let n := (← get).npages.toNat + 1
  let nfree ← countFree 1 n (← ldFree) 0
  let (pp0, pp1, pp2) ← allocThree
  kassert "page2pa(pp0) < npages*PGSIZE" (page2pa pp0 < (← get).npages * pgsize)
  kassert "page2pa(pp1) < npages*PGSIZE" (page2pa pp1 < (← get).npages * pgsize)
  kassert "page2pa(pp2) < npages*PGSIZE" (page2pa pp2 < (← get).npages * pgsize)
  let fl ← ldFree
  stFree none
  assertNoPage
  pageFree pp0
  pageFree pp1
  pageFree pp2
  let (pp0, pp1, pp2) ← allocThree
  assertNoPage
  memset (← page2kva pp0) 1 nptentries
  pageFree pp0
  let pp ← assertAlloc "(pp = page_alloc(ALLOC_ZERO))" allocZero
  kassert "pp && pp0 == pp" (pp0 = pp)
  checkBytes (← page2kva pp) pgsize.toNat
  giveBack fl pp0 pp1 pp2
  let nfree ← countFree (-1) n (← ldFree) nfree
  kassert "nfree == 0" (nfree = 0)

/-- `*pgdir_walk(kern_pgdir, va, 0)` -/
def ldPte (pgdir va : Word) : K Word := do
  match ← pgdirWalk pgdir va false with
  | some pte => ldw pte
  | none => throw (.pageFault 0#32)

/-- check_page: the first two mappings -/
def checkMap (pp0 pp1 pp2 : ℕ) : K Unit := do
  let pgdir := (← get).kernPgdir
  kassert "page_lookup(kern_pgdir, (void *) 0x0, &ptep) == NULL" ((← pageLookup pgdir 0#32).1 = none)
  kassert "page_insert(kern_pgdir, pp1, 0x0, PTE_W) < 0" ((← pageInsert pgdir pp1 0#32 pteW) < 0)
  pageFree pp0
  kassert "page_insert(kern_pgdir, pp1, 0x0, PTE_W) == 0" ((← pageInsert pgdir pp1 0#32 pteW) = 0)
  kassert "PTE_ADDR(kern_pgdir[0]) == page2pa(pp0)" (pteAddr (← ldw ⟨frameOf pgdir, 0⟩) = page2pa pp0)
  kassert "check_va2pa(kern_pgdir, 0x0) == page2pa(pp1)" ((← checkVa2pa pgdir 0#32) = page2pa pp1)
  kassert "pp1->pp_ref == 1" ((← ldRef pp1) = 1#16)
  kassert "pp0->pp_ref == 1" ((← ldRef pp0) = 1#16)
  kassert "page_insert(kern_pgdir, pp2, (void*) PGSIZE, PTE_W) == 0" ((← pageInsert pgdir pp2 pgsize pteW) = 0)
  kassert "check_va2pa(kern_pgdir, PGSIZE) == page2pa(pp2)" ((← checkVa2pa pgdir pgsize) = page2pa pp2)
  kassert "pp2->pp_ref == 1" ((← ldRef pp2) = 1#16)
  assertNoPage

/-- check_page: pp2 is mapped again where it is, with other permissions too -/
def checkRemap (pp0 pp2 : ℕ) : K Unit := do
  let pgdir := (← get).kernPgdir
  kassert "page_insert(kern_pgdir, pp2, (void*) PGSIZE, PTE_W) == 0" ((← pageInsert pgdir pp2 pgsize pteW) = 0)
  kassert "check_va2pa(kern_pgdir, PGSIZE) == page2pa(pp2)" ((← checkVa2pa pgdir pgsize) = page2pa pp2)
  kassert "pp2->pp_ref == 1" ((← ldRef pp2) = 1#16)
  assertNoPage
  let ptep ← kaddr (pteAddr (← ldw ⟨frameOf pgdir, pdx pgsize⟩))
  kassert "pgdir_walk(kern_pgdir, (void*)PGSIZE, 0) == ptep+PTX(PGSIZE)"
    ((← pgdirWalk pgdir pgsize false) = some ⟨frameOf ptep, ptx pgsize⟩)
  kassert "page_insert(kern_pgdir, pp2, (void*) PGSIZE, PTE_W|PTE_U) == 0"
    ((← pageInsert pgdir pp2 pgsize (pteW ||| pteU)) = 0)
  kassert "check_va2pa(kern_pgdir, PGSIZE) == page2pa(pp2)" ((← checkVa2pa pgdir pgsize) = page2pa pp2)
  kassert "pp2->pp_ref == 1" ((← ldRef pp2) = 1#16)
  kassert "*pgdir_walk(kern_pgdir, (void*) PGSIZE, 0) & PTE_U" ((← ldPte pgdir pgsize) &&& pteU ≠ 0#32)
  kassert "kern_pgdir[0] & PTE_U" ((← ldw ⟨frameOf pgdir, 0⟩) &&& pteU ≠ 0#32)
  kassert "page_insert(kern_pgdir, pp2, (void*) PGSIZE, PTE_W) == 0" ((← pageInsert pgdir pp2 pgsize pteW) = 0)
  kassert "*pgdir_walk(kern_pgdir, (void*) PGSIZE, 0) & PTE_W" ((← ldPte pgdir pgsize) &&& pteW ≠ 0#32)
  kassert "!(*pgdir_walk(kern_pgdir, (void*) PGSIZE, 0) & PTE_U)" ((← ldPte pgdir pgsize) &&& pteU = 0#32)
  kassert "page_insert(kern_pgdir, pp0, (void*) PTSIZE, PTE_W) < 0" ((← pageInsert pgdir pp0 ptsize pteW) < 0)

/-- check_page: pp1 replaces pp2, and both mappings of pp1 are removed -/
def checkUnmap (pp1 pp2 : ℕ) : K Unit := do
  let pgdir := (← get).kernPgdir
  kassert "page_insert(kern_pgdir, pp1, (void*) PGSIZE, PTE_W) == 0" ((← pageInsert pgdir pp1 pgsize pteW) = 0)
  kassert "!(*pgdir_walk(kern_pgdir, (void*) PGSIZE, 0) & PTE_U)" ((← ldPte pgdir pgsize) &&& pteU = 0#32)
  kassert "check_va2pa(kern_pgdir, 0) == page2pa(pp1)" ((← checkVa2pa pgdir 0#32) = page2pa pp1)
  kassert "check_va2pa(kern_pgdir, PGSIZE) == page2pa(pp1)" ((← checkVa2pa pgdir pgsize) = page2pa pp1)
  kassert "pp1->pp_ref == 2" ((← ldRef pp1) = 2#16)
  kassert "pp2->pp_ref == 0" ((← ldRef pp2) = 0#16)
  kassert "(pp = page_alloc(0)) && pp == pp2" ((← pageAlloc 0#32) = some pp2)
  pageRemove pgdir 0#32
  kassert "check_va2pa(kern_pgdir, 0x0) == ~0" ((← checkVa2pa pgdir 0#32) = ~~~0#32)
  kassert "check_va2pa(kern_pgdir, PGSIZE) == page2pa(pp1)" ((← checkVa2pa pgdir pgsize) = page2pa pp1)
  kassert "pp1->pp_ref == 1" ((← ldRef pp1) = 1#16)
  kassert "pp2->pp_ref == 0" ((← ldRef pp2) = 0#16)
  kassert "page_insert(kern_pgdir, pp1, (void*) PGSIZE, 0) == 0" ((← pageInsert pgdir pp1 pgsize 0#32) = 0)
  kassert "pp1->pp_ref" ((← ldRef pp1) ≠ 0#16)
  kassert "pp1->pp_link == NULL" ((← ldLink pp1) = none)
  pageRemove pgdir pgsize
  kassert "check_va2pa(kern_pgdir, 0x0) == ~0" ((← checkVa2pa pgdir 0#32) = ~~~0#32)
  kassert "check_va2pa(kern_pgdir, PGSIZE) == ~0" ((← checkVa2pa pgdir pgsize) = ~~~0#32)
  kassert "pp1->pp_ref == 0" ((← ldRef pp1) = 0#16)
  kassert "pp2->pp_ref == 0" ((← ldRef pp2) = 0#16)
  kassert "(pp = page_alloc(0)) && pp == pp1" ((← pageAlloc 0#32) = some pp1)
  assertNoPage

/-- the first n rounds of the loop over the entries of a new page table -/
def checkPtes (ptep : Word) : ℕ → K Unit
  | 0 => return ()
  | i + 1 => do
    checkPtes ptep i
    kassert "(ptep[i] & PTE_P) == 0" (¬ present (← ldw ⟨frameOf ptep, i⟩))

/-- check_page: pp0 is taken back from the directory, and pgdir_walk makes page tables of it -/
def checkWalk (pp0 : ℕ) : K Unit := do
  let pgdir := (← get).kernPgdir
  kassert "PTE_ADDR(kern_pgdir[0]) == page2pa(pp0)" (pteAddr (← ldw ⟨frameOf pgdir, 0⟩) = page2pa pp0)
  stw ⟨frameOf pgdir, 0⟩ 0#32
  kassert "pp0->pp_ref == 1" ((← ldRef pp0) = 1#16)
  stRef pp0 0#16
  pageFree pp0
  let va := pgsize * 1024 + pgsize
  let ptep ← pgdirWalk pgdir va true
  let ptep1 ← kaddr (pteAddr (← ldw ⟨frameOf pgdir, pdx va⟩))
  kassert "ptep == ptep1 + PTX(va)" (ptep = some ⟨frameOf ptep1, ptx va⟩)
  stw ⟨frameOf pgdir, pdx va⟩ 0#32
  stRef pp0 0#16
  memset (← page2kva pp0) 0xFF nptentries
  pageFree pp0
  let _ ← pgdirWalk pgdir 0#32 true
  checkPtes (← page2kva pp0) nptentries
  stw ⟨frameOf pgdir, 0⟩ 0#32
  stRef pp0 0#16

def checkPage : K Unit := do
  let (pp0, pp1, pp2) ← allocThree
  let fl ← ldFree
  stFree none
  assertNoPage
  checkMap pp0 pp1 pp2
  checkRemap pp0 pp2
  checkUnmap pp1 pp2
  checkWalk pp0
  giveBack fl pp0 pp1 pp2

/-! ## The parts of check_page, on the view -/

section Parts

variable {o s : St} {p : Fin 3 → ℕ} {v : View} (hp : Three o p)

theorem Shows.run_ldDir {rest : List ℕ} (h : Shows o p rest s v) (i : Fin 2) :
    (ldw ⟨frameOf o.kernPgdir, i⟩).run s = .ok (if v.dir i then tableEntry (p 0) else 0#32, s) := by
  rw [run_ldw, ← h.dir i]
  rfl

theorem Shows.run_ldRef {rest : List ℕ} (h : Shows o p rest s v) (j : Fin 3) : (ldRef (p j)).run s = .ok (v.ref j, s) := by
  rw [Jos.run_ldRef, h.ref j]

theorem Shows.run_noPage (h : Shows o p [] s v) (hf : v.free = []) : assertNoPage.run s = .ok ((), s) := by
  rw [assertNoPage, Prog.run_bind (h.run_alloc_none hf _)]
  exact run_kassert s rfl

include hp in
theorem Shows.run_ldPte (h : Shows o p [] s v) (hd : v.dir 0 = true) {va : Word} (h0 : pdx va = 0) {i : Fin 2}
    (hi : ptx va = i) : (ldPte o.kernPgdir va).run s = .ok (pteWord p (v.pte i), s) := by
  rw [ldPte, Prog.run_bind ((h.found hp (i := 0) h0 hd).walk false)]
  rw [run_ldw, hi, h.pte hd i]

theorem pte_flag {j : Fin 3} {perm f : Word} (hperm : perm.toNat < 4096) (hf : 0xFFF#32 &&& f = f) :
    pteWord p (some (j, perm)) &&& f = (perm ||| pteP) &&& f := by
  rw [and_flag _ _ hf, pteWord, low_entry (page2pa_aligned _) hperm]

theorem Shows.congr {rest : List ℕ} (h : Shows o p rest s v) {w : View} (e : w = v) : Shows o p rest s w := e ▸ h

theorem held_ref (j : Fin 3) : held.ref j = 0#16 := by fin_cases j <;> rfl

theorem held_dir (i : Fin 2) : held.dir i = false := by fin_cases i <;> rfl

include hp in
theorem checkMap_run (h : Shows o p [] s held) :
    Ends (checkMap (p 0) (p 1) (p 2)) s fun _ t => Shows o p [] t mapped := by
  have hlook : (pageLookup o.kernPgdir 0#32).run s = .ok ((none, none), s) := by
    rw [pageLookup, Prog.run_bind (run_walk_absent false (tbl_eq_none.1 (h.absent (i := 0) (by decide) rfl)) (Or.inl rfl))]
    rfl
  have haddr := pteAddr_tableEntry (hp.lt_page 0)
  refine .bind (run_get s) ?_
  rw [h.fixed.kernPgdir]
  refine .bind hlook (.assert rfl ?_)
  refine .bind (h.run_insert_noMem rfl (i := 0) (by decide) rfl 1 pteW) (.assert (by decide) ?_)
  -- page 0 is freed, and becomes the page table
  obtain ⟨s1, r1, h1⟩ := h.run_free hp (j := 0) rfl (by decide)
  obtain ⟨s2, r2, h2⟩ := h1.run_insert_new hp rfl rfl 0#32 (by decide) (i := 0) (by decide) 1 pteW
  refine .bind r1 (.bind r2 (.assert rfl ?_))
  refine .bind (h2.run_ldDir 0) (.assert haddr ?_)
  refine .bind (h2.run_va2pa hp rfl (by decide) (i := 0) (by decide) (by decide)) (.assert rfl ?_)
  refine .bind (h2.run_ldRef 1) (.assert (by decide) (.bind (h2.run_ldRef 0) (.assert (by decide) ?_)))
  obtain ⟨s3, r3, h3⟩ := h2.run_insert hp rfl pgsize (by decide) (i := 1) (by decide) (by decide) 2 pteW
  refine .bind r3 (.assert rfl ?_)
  refine .bind (h3.run_va2pa hp rfl (by decide) (i := 1) (by decide) (by decide)) (.assert rfl ?_)
  refine .bind (h3.run_ldRef 2) (.assert (by decide) ?_)
  exact .of_run (h3.run_noPage rfl) (h3.congr (by decide))

include hp in
theorem checkRemap_run (h : Shows o p [] s mapped) :
    Ends (checkRemap (p 0) (p 2)) s fun _ t => Shows o p [] t mapped := by
  have hlt := hp.lt_page 0
  have hdir : pdx pgsize = 0 := by decide
  have hk : ∀ {t : St}, St.Fixed o t → (kaddr (pteAddr (tableEntry (p 0)))).run t =
      .ok (pteAddr (tableEntry (p 0)) + kernbase, t) := fun hx => run_kaddr _ (by
    rw [pgnum_pteAddr, pgnum_tableEntry hlt, hx.npages]
    exact hp.lt 0)
  have hframe : frameOf (pteAddr (tableEntry (p 0)) + kernbase) = p 0 := by
    rw [frameOf_add, pgnum_pteAddr, pgnum_tableEntry hlt]
  refine .bind (run_get s) ?_
  rw [h.fixed.kernPgdir]
  obtain ⟨s1, r1, h1⟩ := h.run_insert hp rfl pgsize hdir (i := 1) (by decide) (by decide) 2 pteW
  replace h1 := h1.congr (w := mapped) (by decide)
  refine .bind r1 (.assert rfl ?_)
  refine .bind (h1.run_va2pa hp rfl hdir (i := 1) (by decide) (by decide)) (.assert rfl ?_)
  refine .bind (h1.run_ldRef 2) (.assert (by decide) (.bind (h1.run_noPage rfl) ?_))
  -- the pointer that pgdir_walk returns
  refine .bind (h1.run_ldDir 0) (.bind (hk h1.fixed) ?_)
  refine .bind ((h1.found hp (i := 0) hdir rfl).walk false) (.assert (by rw [hframe]) ?_)
  obtain ⟨s2, r2, h2⟩ := h1.run_insert hp rfl pgsize hdir (i := 1) (by decide) (by decide) 2 (pteW ||| pteU)
  refine .bind r2 (.assert rfl ?_)
  refine .bind (h2.run_va2pa hp rfl hdir (i := 1) (by decide) (by decide)) (.assert rfl ?_)
  refine .bind (h2.run_ldRef 2) (.assert (by decide) ?_)
  refine .bind (h2.run_ldPte hp rfl hdir (i := 1) (by decide)) (.assert ?_ ?_)
  · exact (pte_flag (p := p) (j := 2) (by decide) (by decide)).trans_ne (by decide)
  refine .bind (h2.run_ldDir 0) (.assert ?_ ?_)
  · refine ne_of_eq_of_ne (and_flag _ _ (by decide)) ?_
    change tableEntry (p 0) &&& 0xFFF#32 &&& pteU ≠ 0#32
    rw [tableEntry_low hlt]
    decide
  obtain ⟨s3, r3, h3⟩ := h2.run_insert hp rfl pgsize hdir (i := 1) (by decide) (by decide) 2 pteW
  replace h3 := h3.congr (w := mapped) (by decide)
  refine .bind r3 (.assert rfl ?_)
  refine .bind (h3.run_ldPte hp rfl hdir (i := 1) (by decide)) (.assert ?_ ?_)
  · exact (pte_flag (p := p) (j := 2) (by decide) (by decide)).trans_ne (by decide)
  refine .bind (h3.run_ldPte hp rfl hdir (i := 1) (by decide)) (.assert ?_ ?_)
  · exact (pte_flag (p := p) (j := 2) (by decide) (by decide)).trans (by decide)
  -- no page is left for a page table of PTSIZE
  exact .bind (h3.run_insert_noMem rfl (i := 1) (by decide) rfl 0 pteW)
    (.of_run (run_kassert s3 (by decide)) h3)

include hp in
theorem checkUnmap_run (h : Shows o p [] s mapped) :
    Ends (checkUnmap (p 1) (p 2)) s fun _ t => Shows o p [] t unmapped := by
  have hdir : pdx pgsize = 0 := by decide
  refine .bind (run_get s) ?_
  rw [h.fixed.kernPgdir]
  -- page 1 replaces page 2, whose last reference goes away
  obtain ⟨s1, r1, h1⟩ := h.run_insert hp rfl pgsize hdir (i := 1) (by decide) (by decide) 1 pteW
  replace h1 := h1.congr (w := ⟨[2], ![1#16, 2#16, 0#16], ![true, false], ![some (1, pteW), some (1, pteW)], fun _ => none⟩) (by decide)
  refine .bind r1 (.assert rfl ?_)
  refine .bind (h1.run_ldPte hp rfl hdir (i := 1) (by decide)) (.assert ?_ ?_)
  · exact (pte_flag (p := p) (j := 1) (by decide) (by decide)).trans (by decide)
  refine .bind (h1.run_va2pa hp rfl (by decide) (i := 0) (by decide) (by decide)) (.assert rfl ?_)
  refine .bind (h1.run_va2pa hp rfl hdir (i := 1) (by decide) (by decide)) (.assert rfl ?_)
  refine .bind (h1.run_ldRef 1) (.assert (by decide) (.bind (h1.run_ldRef 2) (.assert (by decide) ?_)))
  obtain ⟨s2, r2, h2⟩ := h1.run_alloc hp (j := 2) rfl
  refine .bind r2 (.assert rfl ?_)
  -- the mapping at 0 is removed
  obtain ⟨s3, r3, h3⟩ := h2.run_remove hp rfl 0#32 (by decide) (i := 0) (by decide) (by decide)
  replace h3 := h3.congr (w := ⟨[], ![1#16, 1#16, 0#16], ![true, false], ![none, some (1, pteW)], fun _ => none⟩) (by decide)
  refine .bind r3 ?_
  refine .bind (h3.run_va2pa hp rfl (by decide) (i := 0) (by decide) (by decide)) (.assert rfl ?_)
  refine .bind (h3.run_va2pa hp rfl hdir (i := 1) (by decide) (by decide)) (.assert rfl ?_)
  refine .bind (h3.run_ldRef 1) (.assert (by decide) (.bind (h3.run_ldRef 2) (.assert (by decide) ?_)))
  obtain ⟨s4, r4, h4⟩ := h3.run_insert hp rfl pgsize hdir (i := 1) (by decide) (by decide) 1 0#32
  refine .bind r4 (.assert rfl ?_)
  refine .bind (h4.run_ldRef 1) (.assert (by decide) ?_)
  refine .bind (run_ldLink s4 (p 1)) (.assert (h4.link 1 (by decide)) ?_)
  -- and the one at PGSIZE, which frees page 1
  obtain ⟨s5, r5, h5⟩ := h4.run_remove hp rfl pgsize hdir (i := 1) (by decide) (by decide)
  replace h5 := h5.congr (w := ⟨[1], ![1#16, 0#16, 0#16], ![true, false], fun _ => none, fun _ => none⟩) (by decide)
  refine .bind r5 ?_
  refine .bind (h5.run_va2pa hp rfl (by decide) (i := 0) (by decide) (by decide)) (.assert rfl ?_)
  refine .bind (h5.run_va2pa hp rfl hdir (i := 1) (by decide) (by decide)) (.assert rfl ?_)
  refine .bind (h5.run_ldRef 1) (.assert (by decide) (.bind (h5.run_ldRef 2) (.assert (by decide) ?_)))
  obtain ⟨s6, r6, h6⟩ := h5.run_alloc hp (j := 1) rfl
  exact .bind r6 (.assert rfl (.of_run (h6.run_noPage rfl) (h6.congr (by decide))))

theorem checkPtes_run {ptep : Word} (n : ℕ) (h : ∀ i < n, ¬ present (s.mem (frameOf ptep) i)) :
    (checkPtes ptep n).run s = .ok ((), s) := by
  induction n with
  | zero => rfl
  | succ n ih =>
    rw [checkPtes, Prog.run_bind (ih fun i hi => h i (Nat.lt_succ_of_lt hi)), Prog.run_bind (run_ldw ..)]
    exact run_kassert s (h n (Nat.lt_succ_self n))

include hp in
theorem checkWalk_run (h : Shows o p [] s unmapped) :
    Ends (checkWalk (p 0)) s fun _ t => Shows o p [] t held := by
  have hlt := hp.lt_page 0
  have hframe : frameOf (page2pa (p 0) + kernbase) = p 0 := frameOf_page2kva hlt
  have hkva : ∀ {t : St}, St.Fixed o t → (page2kva (p 0)).run t = .ok (page2pa (p 0) + kernbase, t) := fun hx =>
    run_page2kva (by rw [hx.npages]; exact hp.lt 0)
  have hdir : pdx (pgsize * 1024 + pgsize) = ((1 : Fin 2) : ℕ) := by decide
  refine .bind (run_get s) ?_
  rw [h.fixed.kernPgdir]
  -- page 0 is taken back from entry 0
  refine .bind (h.run_ldDir 0) (.assert (pteAddr_tableEntry hlt) ?_)
  have h1 := h.clearDir hp 0
  refine .bind (run_stw s _ _) (.bind (h1.run_ldRef 0) (.assert (by decide) ?_))
  have h2 := h1.setRef hp 0 0#16
  obtain ⟨s3, r3, h3⟩ := h2.run_free hp (j := 0) rfl (by decide)
  refine .bind (run_stRef _ _ _) (.bind r3 ?_)
  -- and becomes the table of entry 1
  refine .bind (h3.run_walk_new hp (i := 1) hdir rfl rfl) ?_
  have h4 := h3.linkTable hp rfl 1
  rw [hdir]
  refine .bind (h4.run_ldDir 1) (.bind (run_kaddr _ ?_) (.assert ?_ ?_))
  · rw [pgnum_pteAddr, h4.fixed.npages]
    exact (pgnum_tableEntry hlt).symm ▸ hp.lt 0
  · rw [frameOf_add, pgnum_pteAddr]
    exact congrArg (fun f => some (PtePtr.mk f _)) (pgnum_tableEntry hlt).symm
  have h5 := (h4.clearDir hp 1).setRef hp 0 0#16
  refine .bind (run_stw _ _ _) (.bind (run_stRef _ _ _) (.bind (hkva h5.fixed) (.bind (run_memset ..) ?_)))
  rw [hframe]
  have h6 := h5.fill hp 0 (Or.inl rfl) (byteWord (0xFF &&& 0xFF))
  obtain ⟨s7, r7, h7⟩ := h6.run_free hp (j := 0) rfl (by decide)
  -- and of entry 0 again, cleared
  refine .bind r7 (.bind (h7.run_walk_new hp (i := 0) (by decide) rfl rfl) ?_)
  have h8 := h7.linkTable hp rfl 0
  refine .bind (hkva h8.fixed) (.bind (checkPtes_run nptentries fun i hi => ?_) ?_)
  · rw [hframe, St.linkTable_mem]
    have hzero : linkMem s7.mem o.dir ((0 : Fin 2) : ℕ) (p 0) (p 0) i = 0#32 := by
      simp [linkMem, Mem.set, Mem.fill, hp.ne_dir 0, hi]
    rw [hzero]
    exact not_present_zero
  · refine .bind (run_stw _ _ _) (.of_run (run_stRef _ _ _) ?_)
    exact ((h8.clearDir hp 0).setRef hp 0 0#16).forget.congr (by decide)

end Parts

/-! ## Taking the pages and giving them back -/

/-- the state a self-test starts in: p are the first pages of the free list, and nothing is mapped in the first 8MB -/
structure Ready (o : St) (p : Fin 3 → ℕ) (rest : List ℕ) : Prop extends Three o p where
  list : FreeList o (p 0 :: p 1 :: p 2 :: rest)
  free_lt : ∀ q ∈ rest, q < o.npages.toNat
  ref : ∀ j, o.ref (p j) = 0#16
  dir : ∀ i : Fin 2, o.mem o.dir i = 0#32

/-- a list of three pages at least -/
theorem exists_three {l : List ℕ} (h : 3 ≤ l.length) :
    ∃ (p : Fin 3 → ℕ) (rest : List ℕ), l = p 0 :: p 1 :: p 2 :: rest := by
  rcases l with - | ⟨a, - | ⟨b, - | ⟨c, l⟩⟩⟩
  · simp at h
  · simp at h
  · simp at h
  · exact ⟨![a, b, c], l, rfl⟩

theorem ready_of_list {o : St} {p : Fin 3 → ℕ} {rest l : List ℕ} (hl : l = p 0 :: p 1 :: p 2 :: rest)
    (hn : o.npages.toNat ≤ 65536) (hc : FreeList o l) (hlt : ∀ q ∈ l, q < o.npages.toNat) (hd : o.dir ∉ l)
    (hr : ∀ q ∈ l, o.ref q = 0#16) (hdir : ∀ i : Fin 2, o.mem o.dir i = 0#32) : Ready o p rest := by
  subst hl
  have hmem : ∀ j, p j ∈ p 0 :: p 1 :: p 2 :: rest := fun j => by
    fin_cases j <;> simp
  have hnodup : (List.ofFn p).Nodup := by
    have hl : List.ofFn p ++ rest = p 0 :: p 1 :: p 2 :: rest := by simp
    have hnd := Chain.nodup hc
    rw [← hl] at hnd
    exact (List.nodup_append.1 hnd).1
  refine ⟨⟨hn, List.nodup_ofFn.1 hnodup, fun j => hlt _ (hmem j), fun j e => hd (e ▸ hmem j)⟩, hc,
    fun q hq => hlt q ?_, fun j => hr _ (hmem j), hdir⟩
  exact List.mem_cons_of_mem _ (List.mem_cons_of_mem _ (List.mem_cons_of_mem _ hq))

/-- only the frames and the links of pages of l have changed, and only these pages have been handed out -/
structure Quiet (l : List ℕ) (s t : St) : Prop extends St.Fixed s t where
  ref : t.ref = s.ref
  link : ∀ i, i ∉ l → t.link i = s.link i
  mem : ∀ f i, f ∉ l → t.mem f i = s.mem f i
  log : ∃ as, allocs t.log = allocs s.log ++ as ∧ ∀ q ∈ as, q ∈ l

theorem Quiet.trans {l m : List ℕ} {s t u : St} (h1 : Quiet l s t) (h2 : Quiet m t u) (hm : ∀ q ∈ m, q ∈ l) :
    Quiet l s u := by
  obtain ⟨as, ha, hal⟩ := h1.log
  obtain ⟨bs, hb, hbm⟩ := h2.log
  refine ⟨h1.toFixed.trans h2.toFixed, h2.ref.trans h1.ref, ?_, ?_, as ++ bs, ?_, ?_⟩
  · intro i hi
    rw [h2.link i fun hm' => hi (hm i hm'), h1.link i hi]
  · intro f i hf
    rw [h2.mem f i fun hm' => hf (hm f hm'), h1.mem f i hf]
  · rw [hb, ha, List.append_assoc]
  · intro q hq
    rcases List.mem_append.1 hq with hq | hq
    · exact hal q hq
    · exact hm q (hbm q hq)

section Whole

variable {o s : St} {p : Fin 3 → ℕ} {v : View} {rest : List ℕ}

theorem run_assertAlloc {x : String} {fl : Word} {t : St} {q : ℕ} (h : (pageAlloc fl).run s = .ok (some q, t)) :
    (assertAlloc x fl).run s = .ok (q, t) := by
  rw [assertAlloc, Prog.run_bind h]
  rfl

theorem run_allocThree {a b c : ℕ} {l : List ℕ} (h : FreeList s (a :: b :: c :: l)) :
    allocThree.run s = .ok ((a, b, c), ((s.pop a).pop b).pop c) := by
  have hd := Chain.nodup h
  have hba : b ≠ a := fun e => (List.nodup_cons.1 hd).1 (e ▸ List.mem_cons_self)
  have hca : c ≠ a := fun e => (List.nodup_cons.1 hd).1 (e ▸ List.mem_cons_of_mem b List.mem_cons_self)
  have hcb : c ≠ b := fun e => (List.nodup_cons.1 (List.nodup_cons.1 hd).2).1 (e ▸ List.mem_cons_self)
  have hz : 0#32 &&& allocZero = 0#32 := by decide
  have ha := run_pageAlloc_some h.head hz
  have hb := run_pageAlloc_some h.pop.head hz
  have hc := run_pageAlloc_some h.pop.pop.head hz
  rw [allocThree, Prog.run_bind (run_assertAlloc ha), Prog.run_bind (run_assertAlloc hb), Prog.run_bind (run_assertAlloc hc),
    Prog.run_bind (run_kassert _ hba), Prog.run_bind (run_kassert _ ⟨hcb, hca⟩)]
  rfl

theorem Ready.sep (h : Ready o p rest) (j : Fin 3) : p j ∉ rest := by
  have hnodup := Chain.nodup h.list
  simp only [List.nodup_cons, List.mem_cons, not_or] at hnodup
  fin_cases j
  · exact hnodup.1.2.2
  · exact hnodup.2.1.2
  · exact hnodup.2.2.1

theorem Ready.shows (h : Ready o p rest) : (o.take p).pageFreeList = o.link (p 2) ∧ Shows o p rest (o.take p) held := by
  have hp := h.toThree
  have h01 : p 1 ≠ p 0 := hp.inj.ne (by decide)
  have h02 : p 2 ≠ p 0 := hp.inj.ne (by decide)
  have h12 : p 2 ≠ p 1 := hp.inj.ne (by decide)
  have hx : St.Fixed o (o.take p) := ((o.fixed_pop _).trans (St.fixed_pop ..)).trans (St.fixed_pop ..)
  refine ⟨by simp [St.take, h02, h12], hx, h.list.pop.pop.pop, h.sep, ?_, ?_, ?_, ?_, ?_,
    ?_, fun f i _ _ => rfl, ?_⟩
  · intro j _
    fin_cases j
    · simp [St.take, h01.symm, h02.symm]
    · simp [St.take, h12.symm]
    · simp [St.take]
  · intro j
    simp [St.take, h.ref j, held_ref]
  · intro i
    rw [held_dir]
    exact h.dir i
  · exact fun hd => by cases hd
  · exact fun _ _ hb => by cases hb
  · intro i hi
    simp [St.take, St.pop, St.setLink, St.setFree, St.emit, hi 0, hi 1, hi 2]
  · refine ⟨[p 0, p 1, p 2], by simp [St.take, allocs], fun q hq => ?_⟩
    simp only [List.mem_cons, List.not_mem_nil, or_false] at hq
    rcases hq with rfl | rfl | rfl
    · exact ⟨0, rfl⟩
    · exact ⟨1, rfl⟩
    · exact ⟨2, rfl⟩

/-- the rest of the list is put aside -/
theorem Shows.putAside (h : Shows o p rest s v) (hf : v.free = []) : Shows o p [] (s.setFree none) v :=
  { h with
    fixed := h.fixed.trans (St.fixed_setFree ..)
    list := by
      rw [hf]
      exact chain_nil.2 rfl
    sep := fun _ => List.not_mem_nil }

theorem Ready.start (h : Ready o p rest) : ∃ s, allocThree.run o = .ok ((p 0, p 1, p 2), s) ∧ St.Fixed o s ∧
    s.pageFreeList = o.link (p 2) ∧ Shows o p [] (s.setFree none) held := by
  obtain ⟨hfree, hs⟩ := h.shows
  exact ⟨o.take p, run_allocThree h.list, hs.fixed, hfree, hs.putAside rfl⟩

theorem mem_three {q : ℕ} : q ∈ List.ofFn p ↔ ∃ j, q = p j := by
  rw [List.mem_ofFn]
  exact exists_congr fun j => eq_comm

/-- with nothing referenced or mapped, the state is as before but for the three pages -/
theorem Shows.quiet (hr : Ready o p rest) {l : List ℕ} (h : Shows o p l s v) (href : ∀ j, v.ref j = 0#16)
    (hdir : ∀ i, v.dir i = false) : Quiet (List.ofFn p) o s := by
  have hne : ∀ {q}, q ∉ List.ofFn p → ∀ a, q ≠ p a := fun hq a e => hq (mem_three.2 ⟨a, e⟩)
  obtain ⟨as, ha, hm⟩ := h.log
  refine ⟨h.fixed, ?_, fun q hq => congrArg PageInfo.ppLink (h.pages q (hne hq)), ?_, as, ha,
    fun q hq => mem_three.2 (hm q hq)⟩
  · funext q
    by_cases hq : q ∈ List.ofFn p
    · obtain ⟨a, rfl⟩ := mem_three.1 hq
      rw [h.ref a, href a, hr.ref a]
    · exact congrArg PageInfo.ppRef (h.pages q (hne hq))
  · intro f d hf
    by_cases hd : f = o.dir ∧ d < 2
    · obtain ⟨rfl, hd⟩ := hd
      have h4 := h.dir ⟨d, hd⟩
      rw [hdir] at h4
      exact h4.trans (hr.dir ⟨d, hd⟩).symm
    · exact h.mem f d (hne hf) fun e => by omega

/-- they are freed, in any order, onto the list that was put aside -/
theorem Shows.giveBack (hr : Ready o p rest) (h : Shows o p [] s held) {i j k : Fin 3} (hij : i ≠ j) (hik : i ≠ k)
    (hjk : j ≠ k) : Ends (giveBack (o.link (p 2)) (p i) (p j) (p k)) s fun _ t =>
      Quiet (List.ofFn p) o t ∧ FreeList t (p k :: p j :: p i :: rest) := by
  have hp := hr.toThree
  have hinj : ∀ {a b : Fin 3}, a ≠ b → p a ≠ p b := fun hab => hp.inj.ne hab
  have hrest := hr.sep
  have hzero : ∀ a, s.ref (p a) = 0#16 := fun a => (h.ref a).trans (held_ref a)
  have hnone : ∀ a, s.link (p a) = none := fun a => h.link a List.not_mem_nil
  have h0 : FreeList (s.setFree (o.link (p 2))) rest := by
    refine Chain.congr hr.list.2.2.2 ?_
    intro q hq
    have hpages := h.pages q fun a e => hrest a (e ▸ hq)
    exact congrArg PageInfo.ppLink hpages
  -- the three calls of page_free
  have r1 : (pageFree (p i)).run (s.setFree (o.link (p 2))) = .ok ((), (s.setFree (o.link (p 2))).push (p i)) :=
    run_pageFree (hzero i) (hnone i)
  have h1 := h0.push (hrest i)
  set s1 := (s.setFree (o.link (p 2))).push (p i) with hs1
  have r2 : (pageFree (p j)).run s1 = .ok ((), s1.push (p j)) :=
    run_pageFree (by simp [hs1, hzero]) (by simp [hs1, hnone, hinj hij.symm])
  have h2 := h1.push (p := p j) (by simp [hinj hij.symm, hrest j])
  set s2 := s1.push (p j) with hs2
  have r3 : (pageFree (p k)).run s2 = .ok ((), s2.push (p k)) :=
    run_pageFree (by simp [hs2, hs1, hzero]) (by simp [hs2, hs1, hnone, hinj hik.symm, hinj hjk.symm])
  have h3 := h2.push (p := p k) (by simp [hinj hik.symm, hinj hjk.symm, hrest k])
  have hx : St.Fixed s (s2.push (p k)) :=
    (((St.fixed_setFree ..).trans (St.fixed_push ..)).trans (St.fixed_push ..)).trans (St.fixed_push ..)
  have hq : Quiet (List.ofFn p) s (s2.push (p k)) := by
    refine ⟨hx, by simp [hs2, hs1], fun q hq => ?_, fun f d _ => by simp [hs2, hs1], [], by simp [hs2, hs1],
      fun q hq => by cases hq⟩
    have hne : ∀ a, q ≠ p a := fun a e => hq (mem_three.2 ⟨a, e⟩)
    simp [hs2, hs1, hne]
  exact .bind (run_stFree _ _) (.bind r1 (.bind r2 (.of_run r3
    ⟨(h.quiet hr held_ref held_dir).trans hq fun _ hm => hm, h3⟩)))

/-! ## check_page_alloc -/

theorem countFree_run (d : ℤ) (l : List ℕ) {cur : Option ℕ} {fuel : ℕ} {nfree : ℤ} (h : Chain s.link cur l)
    (hf : l.length < fuel) : (countFree d fuel cur nfree).run s = .ok (nfree + d * l.length, s) := by
  induction l generalizing cur fuel nfree with
  | nil =>
    obtain ⟨fuel, rfl⟩ : ∃ k, fuel = k + 1 := ⟨fuel - 1, by simp at hf; omega⟩
    obtain rfl : cur = none := h
    simp [countFree]
  | cons q l ih =>
    obtain ⟨fuel, rfl⟩ : ∃ k, fuel = k + 1 := ⟨fuel - 1, by simp at hf; omega⟩
    obtain rfl : cur = some q := h.1
    rw [countFree, Prog.run_bind (run_ldLink s q), ih h.2 (by simp at hf; omega), List.length_cons]
    push_cast
    rw [mul_add, mul_one]
    congr 2
    omega

theorem checkBytes_run {c : Word} (n : ℕ) (h : ∀ i < n, s.mem (frameOf c) (i / 4) = 0#32) :
    (checkBytes c n).run s = .ok ((), s) := by
  induction n with
  | zero => rfl
  | succ n ih =>
    have hbyte : (ldByte c n).run s = .ok (0#8, s) := by
      rw [ldByte, Prog.run_bind (run_ldw ..), h n (Nat.lt_succ_self n)]
      simp
    rw [checkBytes, Prog.run_bind (ih fun i hi => h i (Nat.lt_succ_of_lt hi)), Prog.run_bind hbyte]
    exact run_kassert s rfl

/-- page2pa(pp) < npages*PGSIZE -/
theorem page2pa_lt {q : ℕ} (hn : s.npages.toNat ≤ 65536) (hq : q < s.npages.toNat) :
    page2pa q < s.npages * pgsize := by
  have hp : pgsize.toNat = 4096 := rfl
  rw [BitVec.lt_def, page2pa_toNat (by omega), BitVec.toNat_mul, hp]
  omega

theorem Shows.run_allocThree (hp : Three o p) (h : Shows o p [] s v) {i j k : Fin 3} (hf : v.free = [i, j, k]) :
    ∃ t, allocThree.run s = .ok ((p i, p j, p k), t) ∧ Shows o p [] t (v.setFree []) := by
  have hl := h.list
  rw [hf] at hl
  exact ⟨_, Jos.run_allocThree hl, ((h.pop hp hf).pop hp rfl).pop hp rfl⟩

/-- **check_page_alloc** passes, and leaves the list in its old order. -/
theorem checkPageAlloc_run (hr : Ready o p rest) (hv : o.pagesVa ≠ 0#32) :
    Ends checkPageAlloc o fun _ t => Quiet (List.ofFn p) o t ∧ FreeList t (p 0 :: p 1 :: p 2 :: rest) := by
  have hp := hr.toThree
  have hn := hp.npages_le
  have hlt : ∀ q ∈ p 0 :: p 1 :: p 2 :: rest, q < o.npages.toNat := by
    simp only [List.forall_mem_cons]
    exact ⟨hp.lt 0, hp.lt 1, hp.lt 2, hr.free_lt⟩
  have hlen := length_le_npages (Chain.nodup hr.list) hlt
  obtain ⟨s0, r0, hx0, hfl, h0⟩ := hr.start
  have hpa : ∀ {t : St}, St.Fixed o t → ∀ j, page2pa (p j) < t.npages * pgsize := fun hx j =>
    page2pa_lt (by rw [hx.npages]; exact hn) (by rw [hx.npages]; exact hp.lt j)
  refine .bind (run_get o) ?_
  rw [if_neg hv]
  refine .bind (run_get o) (.bind (run_ldFree o) (.bind (countFree_run 1 _ hr.list (Nat.lt_succ_of_le hlen)) ?_))
  refine .bind r0 (.bind (run_get s0) (.assert (hpa hx0 0) (.bind (run_get s0) (.assert (hpa hx0 1) ?_))))
  refine .bind (run_get s0) (.assert (hpa hx0 2) (.bind (run_ldFree s0) (.bind (run_stFree s0 none) ?_)))
  rw [hfl]
  refine .bind (h0.run_noPage rfl) ?_
  -- the pages are freed and allocated again, in reverse order
  obtain ⟨s1, r1, h1⟩ := h0.run_free hp (j := 0) rfl (by decide)
  obtain ⟨s2, r2, h2⟩ := h1.run_free hp (j := 1) rfl (by decide)
  obtain ⟨s3, r3, h3⟩ := h2.run_free hp (j := 2) rfl (by decide)
  obtain ⟨s4, r4, h4⟩ := h3.run_allocThree hp (i := 2) (j := 1) (k := 0) rfl
  refine .bind r1 (.bind r2 (.bind r3 (.bind r4 (.bind (h4.run_noPage rfl) ?_))))
  have hkva : ∀ {t : St}, St.Fixed o t → (page2kva (p 2)).run t = .ok (page2pa (p 2) + kernbase, t) := fun hx =>
    run_page2kva (by rw [hx.npages]; exact hp.lt 2)
  have hframe : frameOf (page2pa (p 2) + kernbase) = p 2 := frameOf_page2kva (hp.lt_page 2)
  -- page 2 is filled with 1, freed, and handed out cleared
  refine .bind (hkva h4.fixed) (.bind (run_memset ..) ?_)
  rw [hframe]
  obtain ⟨s5, r5, h5⟩ := (h4.fill hp 2 (Or.inl rfl) (byteWord (1 &&& 0xFF))).run_free hp (j := 2) rfl (by decide)
  have hhead : s5.pageFreeList = some (p 2) := h5.list.head
  have r6 := run_pageAlloc_zero allocZero hhead (by decide) (hp.lt_page 2) (by rw [h5.fixed.npages]; exact hp.lt 2)
  have h6 := (h5.pop hp rfl).fill hp 2 (Or.inl rfl) 0#32
  refine .bind r5 (.bind (run_assertAlloc r6) (.assert rfl (.bind (hkva h6.fixed) ?_)))
  refine .bind (checkBytes_run _ fun i hi => ?_) ?_
  · have hi' : i / 4 < nptentries := by
      change i < 4096 at hi
      change i / 4 < 1024
      omega
    rw [hframe]
    simp [Mem.fill, hi']
  · refine .seq ((h6.forget.congr (by decide)).giveBack hr (i := 2) (j := 1) (k := 0) (by decide) (by decide) (by decide)) ?_
    rintro - t ⟨hq, hlist⟩
    refine .bind (run_ldFree t) (.bind (countFree_run (-1) _ hlist (Nat.lt_succ_of_le hlen)) ?_)
    refine .of_run (run_kassert t ?_) ⟨hq, hlist⟩
    omega

/-- **check_page** passes, and leaves the three pages in reverse order at the front of the list. -/
theorem checkPage_run (hr : Ready o p rest) :
    Ends checkPage o fun _ t => Quiet (List.ofFn p) o t ∧ FreeList t (p 2 :: p 1 :: p 0 :: rest) := by
  have hp := hr.toThree
  obtain ⟨s0, r0, hx0, hfl, h0⟩ := hr.start
  refine .bind r0 (.bind (run_ldFree s0) (.bind (run_stFree s0 none) ?_))
  rw [hfl]
  refine .bind (h0.run_noPage rfl) (.seq (checkMap_run hp h0) fun _ s1 h1 => ?_)
  refine .seq (checkRemap_run hp h1) fun _ s2 h2 => .seq (checkUnmap_run hp h2) ?_
  intro _ s3 h3
  exact .seq (checkWalk_run hp h3) fun _ s4 h4 => h4.giveBack hr (by decide) (by decide) (by decide)

/-! ## One after the other -/

/-- a self-test that puts the list back leaves a state the next one can start in -/
theorem Ready.again {t : St} (h : Ready o p rest) (hq : Quiet (List.ofFn p) o t)
    (hl : FreeList t (p 0 :: p 1 :: p 2 :: rest)) : Ready t p rest := by
  have hp := h.toThree
  have hdir : o.dir ∉ List.ofFn p := fun hd => by
    obtain ⟨j, hj⟩ := mem_three.1 hd
    exact hp.ne_dir j hj.symm
  refine ⟨⟨?_, hp.inj, ?_, ?_⟩, hl, ?_, ?_, ?_⟩
  · rw [hq.npages]
    exact hp.npages_le
  · intro j
    rw [hq.npages]
    exact hp.lt j
  · intro j
    rw [hq.toFixed.dir]
    exact hp.ne_dir j
  · intro q hq'
    rw [hq.npages]
    exact h.free_lt q hq'
  · intro j
    rw [hq.ref]
    exact h.ref j
  · intro i
    rw [hq.toFixed.dir, hq.mem o.dir i hdir]
    exact h.dir i

/-- **The self-tests are neutral.** Both pass, and after them only the first three pages of the free list have changed
places. -/
theorem selfTests_neutral (o : St) (l : List ℕ) (hn : o.npages.toNat ≤ 65536) (hv : o.pagesVa ≠ 0#32)
    (hc : FreeList o l) (hlen : 3 ≤ l.length) (hlt : ∀ q ∈ l, q < o.npages.toNat) (hd : o.dir ∉ l)
    (hr : ∀ q ∈ l, o.ref q = 0#16) (h0 : o.mem o.dir 0 = 0#32) (h1 : o.mem o.dir 1 = 0#32) :
    ∃ a b c rest t u, l = a :: b :: c :: rest ∧ checkPageAlloc.run o = .ok ((), t) ∧ checkPage.run t = .ok ((), u) ∧
      FreeList t l ∧ FreeList u (c :: b :: a :: rest) ∧
      u.kernPgdir = o.kernPgdir ∧ (∀ i, u.mem u.dir i = o.mem o.dir i) ∧ ∀ i, u.ref i = o.ref i := by
  obtain ⟨p, rest, hl⟩ := exists_three hlen
  have hready : Ready o p rest := ready_of_list hl hn hc hlt hd hr fun i => by
    fin_cases i
    · exact h0
    · exact h1
  obtain ⟨⟨⟩, t, r1, hq1, hl1⟩ := checkPageAlloc_run hready hv
  obtain ⟨⟨⟩, u, r2, hq2, hl2⟩ := checkPage_run (hready.again hq1 hl1)
  have hq := hq1.trans hq2 fun q hq => hq
  have hdir : o.dir ∉ List.ofFn p := fun hmem => by
    obtain ⟨j, hj⟩ := mem_three.1 hmem
    exact hready.ne_dir j hj.symm
  refine ⟨p 0, p 1, p 2, rest, t, u, hl, r1, r2, hl ▸ hl1, hl2, hq.kernPgdir, ?_, ?_⟩
  · intro i
    rw [hq.toFixed.dir, hq.mem o.dir i hdir]
  · intro i
    rw [hq.ref]

/-- the list 3, 1280, 2 -/
theorem selfTests_neutral_three : ∃ t u, checkPageAlloc.run threeFreeSt = .ok ((), t) ∧
    checkPage.run t = .ok ((), u) ∧ FreeList u [2, 1280, 3] := by
  obtain ⟨a, b, c, rest, t, u, hl, r1, r2, -, hu, -⟩ := selfTests_neutral threeFreeSt [3, 1280, 2] (by decide)
    (by decide) ⟨rfl, rfl, rfl, rfl⟩ (by decide) (by decide) (by decide) (by decide) rfl rfl
  cases hl
  exact ⟨t, u, r1, r2, hu⟩

end Whole

end Jos
