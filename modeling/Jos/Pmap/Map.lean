/-
Mapping and unmapping: page_insert, page_lookup, page_remove and tlb_invalidate of kern/pmap.c.

The runs, for a page whose table exists (`walk_found` of page_insert may have just made it):
- `run_remove_mapped`: the page loses a reference, its entry is cleared, then the TLB entry is invalidated (`St.unmap`);
- `run_remove_unmapped`: nothing happens;
- `run_insert`: page_insert takes the reference first, removes what was mapped, and only then stores the new entry
  (`St.insert`).
-/
import Jos.Pmap.Walk

namespace Jos

open Jos.Lib

/-- inc/error.h: request failed due to memory shortage -/
def eNoMem : ℤ := 4

def tlbInvalidate (_pgdir va : Word) : K Unit := issue (.invlpg va)

/-- the page mapped at va, and what is stored through `pte_store` -/
def pageLookup (pgdir va : Word) : K (Option ℕ × Option PtePtr) := do
  match ← pgdirWalk pgdir va false with
  | none => return (none, none)
  | some pte => return (some (← pa2page (← ldw pte)), some pte)

def pageRemove (pgdir va : Word) : K Unit := do
  match ← pgdirWalk pgdir va false with
  | none => return ()
  | some pte =>
    if present (← ldw pte) then
      let piStranky ← pa2page (← ldw pte)
      pageDecref piStranky
      stw pte 0#32
      tlbInvalidate pgdir va

def pageInsert (pgdir : Word) (pp : ℕ) (va perm : Word) : K ℤ := do
  match ← pgdirWalk pgdir va true with
  | none => return -eNoMem
  | some pte =>
    stRef pp ((← ldRef pp) + 1#16)
    if present (← ldw pte) then
      pageRemove pgdir va
    stw pte (page2pa pp ||| perm ||| pteP)
    return 0

/-! ## What the functions do -/

/-- entry i of table f, which maps page q at va, is removed -/
def St.unmap (s : St) (f i q : ℕ) (va : Word) : St := ((s.decref q).emit (.store f i 0#32)).emit (.invlpg va)

/-- page pp is mapped at va by entry i of table f -/
def St.insert (s : St) (f i pp : ℕ) (va perm : Word) : St :=
  let t := s.setRef pp (s.ref pp + 1#16)
  (if present (s.mem f i) then t.unmap f i (pgnum (s.mem f i)) va else t).emit
    (.store f i (entry (page2pa pp) perm))

section Fields
variable (s : St) (f i p : ℕ) (va : Word)

@[simp] theorem St.decref_mem : (s.decref p).mem = s.mem := by unfold St.decref; split_ifs <;> rfl
@[simp] theorem St.decref_log : (s.decref p).log = s.log := by unfold St.decref; split_ifs <;> rfl
@[simp] theorem St.decref_ref : (s.decref p).ref = Function.update s.ref p (s.ref p - 1#16) := by
  unfold St.decref
  split_ifs with h
  · simp [h]
  · simp
theorem St.fixed_decref : Fixed s (s.decref p) := by
  unfold St.decref
  split_ifs
  · exact (fixed_setRef ..).trans (fixed_push ..)
  · exact fixed_setRef ..

@[simp] theorem St.unmap_mem : (s.unmap f i p va).mem = s.mem.set f i 0#32 := by simp [St.unmap, Ev.mem]
@[simp] theorem St.unmap_ref : (s.unmap f i p va).ref = Function.update s.ref p (s.ref p - 1#16) := by
  simp [St.unmap]
@[simp] theorem St.unmap_link : (s.unmap f i p va).link = (s.decref p).link := rfl
@[simp] theorem St.unmap_free : (s.unmap f i p va).pageFreeList = (s.decref p).pageFreeList := rfl
@[simp] theorem St.unmap_log : (s.unmap f i p va).log = s.log ++ [.store f i 0#32, .invlpg va] := by
  simp [St.unmap]
theorem St.fixed_unmap : Fixed s (s.unmap f i p va) :=
  ((s.fixed_decref p).trans (fixed_emit ..)).trans (fixed_emit ..)

end Fields

section Runs

variable {s : St} {pgdir va perm : Word} {f pp : ℕ}

/-- entry PDX(va) of the directory names table f, a page that KADDR accepts -/
def Found (s : St) (pgdir va : Word) (f : ℕ) : Prop :=
  tbl s.mem (frameOf pgdir) (pdx va) = some f ∧ f < s.npages.toNat

theorem Found.walk (h : Found s pgdir va f) (create : Bool) :
    (pgdirWalk pgdir va create).run s = .ok (some ⟨f, ptx va⟩, s) := by
  obtain ⟨hp, rfl⟩ := tbl_eq_some.1 h.1
  exact run_walk_found hp h.2

theorem run_remove_absent (h : tbl s.mem (frameOf pgdir) (pdx va) = none) :
    (pageRemove pgdir va).run s = .ok ((), s) := by
  simp [pageRemove, run_walk_absent false (tbl_eq_none.1 h) (Or.inl rfl)]

theorem run_remove_unmapped (h : Found s pgdir va f) (hp : ¬ present (s.mem f (ptx va))) :
    (pageRemove pgdir va).run s = .ok ((), s) := by
  simp [pageRemove, h.walk false, hp]

theorem run_remove_mapped (h : Found s pgdir va f) (hp : present (s.mem f (ptx va)))
    (hq : pgnum (s.mem f (ptx va)) < s.npages.toNat)
    (hl : s.ref (pgnum (s.mem f (ptx va))) = 1#16 → s.link (pgnum (s.mem f (ptx va))) = none) :
    (pageRemove pgdir va).run s = .ok ((), s.unmap f (ptx va) (pgnum (s.mem f (ptx va))) va) := by
  simp [pageRemove, h.walk false, hp, run_pa2page hq, run_pageDecref hl, tlbInvalidate, St.unmap]

theorem run_insert_noMem (h : tbl s.mem (frameOf pgdir) (pdx va) = none) (hf : s.pageFreeList = none) :
    (pageInsert pgdir pp va perm).run s = .ok (-eNoMem, s) := by
  simp [pageInsert, run_walk_absent true (tbl_eq_none.1 h) (Or.inr hf)]

/-- page_insert from the state t that its pgdir_walk leaves -/
theorem run_insert {t : St} (hw : (pgdirWalk pgdir va true).run s = .ok (some ⟨f, ptx va⟩, t))
    (h : Found t pgdir va f)
    (hq : present (t.mem f (ptx va)) → pgnum (t.mem f (ptx va)) < t.npages.toNat ∧
      ((t.setRef pp (t.ref pp + 1#16)).ref (pgnum (t.mem f (ptx va))) = 1#16 →
        t.link (pgnum (t.mem f (ptx va))) = none)) :
    (pageInsert pgdir pp va perm).run s = .ok (0, t.insert f (ptx va) pp va perm) := by
  by_cases hp : present (t.mem f (ptx va))
  · have hf : Found (t.setRef pp (t.ref pp + 1#16)) pgdir va f := h
    have hrem := run_remove_mapped hf hp (hq hp).1 (by simpa using (hq hp).2)
    simp only [pageInsert, StateT.run_bind, hw, ok_bind, run_ldRef, run_stRef, run_ldw, St.setRef_mem, hp, if_true, hrem,
      run_stw, run_pure, ← entry.eq_def, St.insert]
  · simp [pageInsert, hw, hp, St.insert, entry]

end Runs

end Jos
