/-
The page allocator: kern/pmap.h and page_alloc, page_free, page_decref of kern/pmap.c.

Each function comes with what its run does to the state:
- `run_pageAlloc_none`, `run_pageAlloc_some`, `run_pageAlloc_zero`: an empty list, the first page (`St.pop`), the first
  page with its frame cleared;
- `run_pageFree`: the page becomes the first of the list (`St.push`);
- `run_pageDecref`: the counter drops, and the page is freed when it reaches 0.
-/
import Jos.Pmap.State
import Jos.Lib.Chain

namespace Jos

open Jos.Lib

/-! ## kern/pmap.h -/

/-- `PADDR(kva)` -/
def paddr (kva : Word) : K Word :=
  if kva < kernbase then panic "PADDR called with invalid kva %08lx" else pure (kva - kernbase)

/-- `KADDR(pa)` -/
def kaddr (pa : Word) : K Word := do
  if (← get).npages.toNat ≤ pgnum pa then panic "KADDR called with invalid pa %08lx"
  else return pa + kernbase

def page2pa (pp : ℕ) : Word := BitVec.ofNat 32 pp <<< 12

def pa2page (pa : Word) : K ℕ := do
  if (← get).npages.toNat ≤ pgnum pa then panic "pa2page called with invalid pa"
  else return pgnum pa

def page2kva (pp : ℕ) : K Word := kaddr (page2pa pp)

def allocZero : Word := 1

/-! ## kern/pmap.c -/

def pageAlloc (allocFlags : Word) : K (Option ℕ) := do
  match ← ldFree with
  | none => return none
  | some alokovanaStranka =>
    stFree (← ldLink alokovanaStranka)
    stLink alokovanaStranka none
    issue (.alloc alokovanaStranka)
    if allocFlags &&& allocZero ≠ 0#32 then
      memset (← page2kva alokovanaStranka) 0 nptentries
    return some alokovanaStranka

def pageFree (pp : ℕ) : K Unit := do
  if (← ldRef pp) ≠ 0#16 ∨ (← ldLink pp) ≠ none then
    panic "page_free() - pp_ref is nonzero or pp_link is not NULL\n"
  else
    stLink pp (← ldFree)
    stFree (some pp)

def pageDecref (pp : ℕ) : K Unit := do
  stRef pp ((← ldRef pp) - 1#16)
  if (← ldRef pp) = 0#16 then pageFree pp

/-! ## Addresses of pages -/

/-- addresses of pages wrap at 4GB -/
theorem page2pa_toNat_mod (pp : ℕ) : (page2pa pp).toNat = pp % 1048576 * 4096 := by
  rw [page2pa, BitVec.toNat_shiftLeft, BitVec.toNat_ofNat, Nat.shiftLeft_eq]
  omega

theorem page2pa_toNat {pp : ℕ} (h : pp < 1048576) : (page2pa pp).toNat = pp * 4096 := by
  rw [page2pa_toNat_mod, Nat.mod_eq_of_lt h]

theorem page2pa_aligned (pp : ℕ) : (page2pa pp).toNat % 4096 = 0 := by
  rw [page2pa_toNat_mod]; omega

theorem pgnum_page2pa_mod (pp : ℕ) : pgnum (page2pa pp) = pp % 1048576 := by
  rw [pgnum_eq, page2pa_toNat_mod]; omega

theorem pgnum_page2pa {pp : ℕ} (h : pp < 1048576) : pgnum (page2pa pp) = pp := by
  rw [pgnum_page2pa_mod, Nat.mod_eq_of_lt h]

theorem page2pa_pgnum (e : Word) : page2pa (pgnum e) = pteAddr e := by
  apply BitVec.eq_of_toNat_eq
  rw [page2pa_toNat (pgnum_lt e), pteAddr_toNat, pgnum_eq]

theorem frameOf_add (pa : Word) : frameOf (pa + kernbase) = pgnum pa := by
  rw [frameOf, BitVec.add_sub_cancel]

theorem frameOf_page2kva {pp : ℕ} (h : pp < 1048576) : frameOf (page2pa pp + kernbase) = pp := by
  rw [frameOf_add, pgnum_page2pa h]

section Runs

variable {s : St} {pp : ℕ}

theorem run_paddr {kva : Word} (h : kernbase ≤ kva) : (paddr kva).run s = .ok (kva - kernbase, s) := by
  have : ¬ kva < kernbase := by rw [BitVec.not_lt]; exact h
  simp [paddr, this]

/-- PADDR returns for the addresses from KERNBASE on -/
theorem paddr_ok {kva pa : Word} {t : St} :
    (paddr kva).run s = .ok (pa, t) ↔ kernbase ≤ kva ∧ pa = kva - kernbase ∧ t = s := by
  by_cases h : kernbase ≤ kva
  · rw [run_paddr h]
    constructor
    · intro he
      cases he
      exact ⟨h, rfl, rfl⟩
    · rintro ⟨-, rfl, rfl⟩
      rfl
  · have hlt : kva < kernbase := BitVec.not_le.1 h
    simp [paddr, hlt, h]

theorem run_kaddr (pa : Word) (h : pgnum pa < s.npages.toNat) : (kaddr pa).run s = .ok (pa + kernbase, s) := by
  simp [kaddr, Nat.not_le.2 h]

theorem run_pa2page {pa : Word} (h : pgnum pa < s.npages.toNat) : (pa2page pa).run s = .ok (pgnum pa, s) := by
  simp [pa2page, Nat.not_le.2 h]

/-- pa2page returns for the addresses of existing pages -/
theorem pa2page_ok {pa : Word} {p : ℕ} {t : St} :
    (pa2page pa).run s = .ok (p, t) ↔ pgnum pa < s.npages.toNat ∧ p = pgnum pa ∧ t = s := by
  by_cases h : pgnum pa < s.npages.toNat
  · rw [run_pa2page h]
    constructor
    · intro he
      cases he
      exact ⟨h, rfl, rfl⟩
    · rintro ⟨-, rfl, rfl⟩
      rfl
  · simp [pa2page, Nat.not_lt.1 h, h]

theorem run_page2kva (h : pp < s.npages.toNat) : (page2kva pp).run s = .ok (page2pa pp + kernbase, s) :=
  run_kaddr _ (by rw [pgnum_page2pa_mod]; omega)

/-! ## The free list -/

/-- the list that starts at page_free_list -/
def FreeList (s : St) (l : List ℕ) : Prop := Chain s.link s.pageFreeList l

/-- the first page leaves the list -/
def St.pop (s : St) (p : ℕ) : St := ((s.setFree (s.link p)).setLink p none).emit (.alloc p)

/-- p becomes the first page of the list -/
def St.push (s : St) (p : ℕ) : St := (s.setLink p s.pageFreeList).setFree (some p)

section Fields
variable (s : St) (p : ℕ)

@[simp] theorem St.pop_free : (s.pop p).pageFreeList = s.link p := rfl
@[simp] theorem St.pop_link : (s.pop p).link = Function.update s.link p none := by simp [St.pop]
@[simp] theorem St.pop_ref : (s.pop p).ref = s.ref := by simp [St.pop]
@[simp] theorem St.pop_mem : (s.pop p).mem = s.mem := rfl
@[simp] theorem St.pop_log : (s.pop p).log = s.log ++ [.alloc p] := rfl
@[simp] theorem St.push_free : (s.push p).pageFreeList = some p := rfl
@[simp] theorem St.push_link : (s.push p).link = Function.update s.link p s.pageFreeList := by simp [St.push]
@[simp] theorem St.push_ref : (s.push p).ref = s.ref := by simp [St.push]
@[simp] theorem St.push_mem : (s.push p).mem = s.mem := rfl
@[simp] theorem St.push_log : (s.push p).log = s.log := rfl

end Fields

theorem FreeList.pop {p : ℕ} {l : List ℕ} (h : FreeList s (p :: l)) : FreeList (s.pop p) l := by
  simpa [FreeList] using Chain.pop h none

theorem FreeList.push {p : ℕ} {l : List ℕ} (h : FreeList s l) (hp : p ∉ l) : FreeList (s.push p) (p :: l) := by
  simpa [FreeList] using Chain.push h hp

theorem FreeList.congr {s' : St} {l : List ℕ} (h : FreeList s l) (hf : s'.pageFreeList = s.pageFreeList)
    (hl : ∀ p ∈ l, s'.link p = s.link p) : FreeList s' l := by
  unfold FreeList at h ⊢
  rw [hf]
  exact Chain.congr h hl

theorem FreeList.head {p : ℕ} {l : List ℕ} (h : FreeList s (p :: l)) : s.pageFreeList = some p := h.1

theorem St.fixed_pop (s : St) (p : ℕ) : Fixed s (s.pop p) := ⟨rfl, rfl, rfl, rfl, rfl, rfl⟩

theorem St.fixed_push (s : St) (p : ℕ) : Fixed s (s.push p) := ⟨rfl, rfl, rfl, rfl, rfl, rfl⟩

/-! ## What the functions do -/

theorem run_pageAlloc_none {fl : Word} (h : s.pageFreeList = none) : (pageAlloc fl).run s = .ok (none, s) := by
  simp [pageAlloc, h]

theorem run_pageAlloc_some {fl : Word} (h : s.pageFreeList = some pp) (hz : fl &&& allocZero = 0#32) :
    (pageAlloc fl).run s = .ok (some pp, s.pop pp) := by
  simp [pageAlloc, h, hz, St.pop]

theorem run_pageAlloc_zero (fl : Word) (h : s.pageFreeList = some pp) (hz : fl &&& allocZero ≠ 0#32)
    (hl : pp < 1048576) (hp : pp < s.npages.toNat) :
    (pageAlloc fl).run s = .ok (some pp, (s.pop pp).fill pp nptentries 0#32) := by
  have hk : (page2kva pp).run (s.pop pp) = .ok (page2pa pp + kernbase, s.pop pp) := run_page2kva hp
  have hb : byteWord 0#32 = 0#32 := by decide
  simp [pageAlloc, h, hz, ← St.pop.eq_def, hk, frameOf_page2kva hl, hb]

theorem run_pageFree (hr : s.ref pp = 0#16) (hl : s.link pp = none) : (pageFree pp).run s = .ok ((), s.push pp) := by
  simp [pageFree, hr, hl, St.push]

theorem pageFree_ok {s' : St} {u : Unit} (h : (pageFree pp).run s = .ok (u, s')) :
    s.ref pp = 0#16 ∧ s.link pp = none ∧ s' = s.push pp := by
  by_cases hr : s.ref pp = 0#16
  · by_cases hl : s.link pp = none
    · rw [run_pageFree hr hl] at h
      exact ⟨hr, hl, (Prod.ext_iff.1 (Except.ok.inj h)).2.symm⟩
    · simp [pageFree, hl] at h
  · simp [pageFree, hr] at h

/-- the state after page_decref: the page joins the list when its last reference is gone -/
def St.decref (s : St) (p : ℕ) : St :=
  if s.ref p = 1#16 then (s.setRef p 0#16).push p else s.setRef p (s.ref p - 1#16)

theorem run_pageDecref (h : s.ref pp = 1#16 → s.link pp = none) : (pageDecref pp).run s = .ok ((), s.decref pp) := by
  by_cases h1 : s.ref pp = 1#16
  · have hf : (pageFree pp).run (s.setRef pp 0#16) = .ok ((), (s.setRef pp 0#16).push pp) :=
      run_pageFree (by simp) (by simpa using h h1)
    simp [pageDecref, h1, hf, St.decref]
  · have h0 : s.ref pp - 1#16 ≠ 0#16 := by bv_omega
    simp [pageDecref, h0, h1, St.decref]

end Runs

end Jos
