/-
The two-level page table: pgdir_walk and check_va2pa of kern/pmap.c, and the translation they work on.

`tbl m dir d` is the page table that entry d of the directory in frame dir names, `xlat m dir n` the present page table
entry of virtual page n: what the hardware walk finds. Entry PDX(UVPT) = 957 of kern_pgdir names the directory itself.

`Apart s dir l` is what keeps the walks of different pages apart: l is the free list, the page tables are distinct pages
below npages, none of them the directory or free. `Tables s l` says it of kern_pgdir and its self entry. Under them
- `xlat_store`: a store through the pointer pgdir_walk returns changes the translation of this page and of no other;
- `xlat_link`: a new, cleared page table changes no translation, outside the window at UVPT in which the directory
  itself serves as a page table.
The runs of pgdir_walk: `run_walk_found`, `run_walk_absent`, `run_walk_alloc`.
-/
import Jos.Pmap.Alloc

namespace Jos

open Jos.Lib

def pgdirWalk (pgdir va : Word) (create : Bool) : K (Option PtePtr) := do
  let pde : PtePtr := ⟨frameOf pgdir, pdx va⟩
  if ¬ present (← ldw pde) then
    if create = false then return none
    match ← pageAlloc allocZero with
    | none => return none
    | some novyPde =>
      stRef novyPde ((← ldRef novyPde) + 1#16)
      stLink novyPde none
      stw pde (page2pa novyPde ||| pteP ||| pteW ||| pteU)
  let pgtab ← kaddr (pteAddr (← ldw pde))
  return some ⟨frameOf pgtab, ptx va⟩

def checkVa2pa (pgdir va : Word) : K Word := do
  let pde ← ldw ⟨frameOf pgdir, pdx va⟩
  if ¬ present pde then return ~~~0#32
  let p ← kaddr (pteAddr pde)
  let pte ← ldw ⟨frameOf p, ptx va⟩
  if ¬ present pte then return ~~~0#32
  return pteAddr pte

/-! ## The translation -/

/-- the page table that entry d of the directory names -/
def tbl (m : Mem) (dir d : ℕ) : Option ℕ := if present (m dir d) then some (pgnum (m dir d)) else none

/-- the present page table entry of virtual page n -/
def xlat (m : Mem) (dir n : ℕ) : Option Word :=
  match tbl m dir (n / 1024) with
  | none => none
  | some f => if present (m f (n % 1024)) then some (m f (n % 1024)) else none

/-- the permission bits the hardware checks -/
def permMask : Word := pteP ||| pteW ||| pteU

/-- what the MMU finds for virtual page n: the frame, and the permissions that both entries of the walk grant -/
def mmu (m : Mem) (dir n : ℕ) : Option (ℕ × Word) :=
  (xlat m dir n).map fun e => (pgnum e, m dir (n / 1024) &&& e &&& permMask)

/-- the entry pgdir_walk stores in the directory for a new page table -/
def tableEntry (p : ℕ) : Word := page2pa p ||| pteP ||| pteW ||| pteU

theorem pdx_uvpt : pdx uvpt = 957 := by decide

theorem tbl_eq_some {m : Mem} {dir d f : ℕ} : tbl m dir d = some f ↔ present (m dir d) ∧ pgnum (m dir d) = f := by
  unfold tbl
  split_ifs with h <;> simp [h]

theorem tbl_eq_none {m : Mem} {dir d : ℕ} : tbl m dir d = none ↔ ¬ present (m dir d) := by
  unfold tbl
  split_ifs with h <;> simp [h]

theorem xlat_of_tbl {m : Mem} {dir n f : ℕ} (h : tbl m dir (n / 1024) = some f) :
    xlat m dir n = if present (m f (n % 1024)) then some (m f (n % 1024)) else none := by
  simp [xlat, h]

theorem xlat_none {m : Mem} {dir n : ℕ} (h : tbl m dir (n / 1024) = none) : xlat m dir n = none := by
  simp [xlat, h]

theorem tableEntry_toNat {p : ℕ} (hp : p < 1048576) : (tableEntry p).toNat = p * 4096 + 7 := by
  have h : tableEntry p = page2pa p ||| 7#32 := by
    simp only [tableEntry, BitVec.or_assoc]
    rfl
  rw [h, or_toNat (page2pa_aligned p) (by decide), page2pa_toNat hp]
  rfl

theorem pgnum_tableEntry {p : ℕ} (hp : p < 1048576) : pgnum (tableEntry p) = p := by
  rw [pgnum_eq, tableEntry_toNat hp]; omega

theorem present_tableEntry {p : ℕ} (hp : p < 1048576) : present (tableEntry p) := by
  rw [present_iff, tableEntry_toNat hp]; omega

theorem tableEntry_low {p : ℕ} (hp : p < 1048576) : tableEntry p &&& 0xFFF#32 = 7#32 := by
  apply BitVec.eq_of_toNat_eq
  rw [low_toNat, tableEntry_toNat hp]
  change (p * 4096 + 7) % 4096 = 7
  omega

theorem pteAddr_tableEntry {p : ℕ} (hp : p < 1048576) : pteAddr (tableEntry p) = page2pa p := by
  rw [← page2pa_pgnum, pgnum_tableEntry hp]

/-- the translations that do not go through frame f: neither the directory nor the table of the page -/
theorem xlat_congr {m m' : Mem} {dir n : ℕ} (hd : m' dir (n / 1024) = m dir (n / 1024))
    (ht : ∀ f, tbl m dir (n / 1024) = some f → m' f (n % 1024) = m f (n % 1024)) : xlat m' dir n = xlat m dir n := by
  have h : tbl m' dir (n / 1024) = tbl m dir (n / 1024) := by unfold tbl; rw [hd]
  cases hf : tbl m dir (n / 1024) with
  | none => rw [xlat_none hf, xlat_none (h.trans hf)]
  | some f => rw [xlat_of_tbl hf, xlat_of_tbl (h.trans hf), ht f hf]

theorem mmu_congr {m m' : Mem} {dir n : ℕ} (hx : xlat m' dir n = xlat m dir n)
    (hd : m' dir (n / 1024) = m dir (n / 1024)) : mmu m' dir n = mmu m dir n := by
  unfold mmu
  rw [hx, hd]

/-! ## Page tables that do not share frames -/

/-- the page tables of the directory in frame dir, those behind the UVPT entry left out, and the free list l -/
structure Apart (s : St) (dir : ℕ) (l : List ℕ) : Prop where
  npages_le : s.npages.toNat ≤ 65536
  chain : FreeList s l
  free_lt : ∀ p ∈ l, p < s.npages.toNat
  dir_free : dir ∉ l
  tbl_lt : ∀ d f, d < 1024 → d ≠ 957 → tbl s.mem dir d = some f → f < s.npages.toNat
  tbl_dir : ∀ d f, d < 1024 → d ≠ 957 → tbl s.mem dir d = some f → f ≠ dir
  tbl_free : ∀ d f, d < 1024 → d ≠ 957 → tbl s.mem dir d = some f → f ∉ l
  tbl_inj : ∀ d d' f, d < 1024 → d' < 1024 → d ≠ 957 → d' ≠ 957 → tbl s.mem dir d = some f →
    tbl s.mem dir d' = some f → d = d'

/-- the same of kern_pgdir, with its self entry -/
structure Tables (s : St) (l : List ℕ) : Prop where
  npages_le : s.npages.toNat ≤ 65536
  chain : FreeList s l
  free_lt : ∀ p ∈ l, p < s.npages.toNat
  dir_free : s.dir ∉ l
  self : tbl s.mem s.dir 957 = some s.dir
  tbl_lt : ∀ d f, d < 1024 → d ≠ 957 → tbl s.mem s.dir d = some f → f < s.npages.toNat
  tbl_dir : ∀ d f, d < 1024 → d ≠ 957 → tbl s.mem s.dir d = some f → f ≠ s.dir
  tbl_free : ∀ d f, d < 1024 → d ≠ 957 → tbl s.mem s.dir d = some f → f ∉ l
  tbl_inj : ∀ d d' f, d < 1024 → d' < 1024 → d ≠ 957 → d' ≠ 957 → tbl s.mem s.dir d = some f →
    tbl s.mem s.dir d' = some f → d = d'

theorem Tables.apart {s : St} {l : List ℕ} (h : Tables s l) : Apart s s.dir l :=
  ⟨h.npages_le, h.chain, h.free_lt, h.dir_free, h.tbl_lt, h.tbl_dir, h.tbl_free, h.tbl_inj⟩

theorem Apart.tables {s : St} {l : List ℕ} (h : Apart s s.dir l) (hself : tbl s.mem s.dir 957 = some s.dir) :
    Tables s l :=
  ⟨h.npages_le, h.chain, h.free_lt, h.dir_free, hself, h.tbl_lt, h.tbl_dir, h.tbl_free, h.tbl_inj⟩

/-- no walk goes through a free page -/
theorem Tables.xlat_off_free {s : St} {l : List ℕ} (h : Tables s l) {m : Mem} (hm : ∀ f i, f ∉ l → m f i = s.mem f i)
    {n : ℕ} (hn : n < 1048576) : xlat m s.dir n = xlat s.mem s.dir n := by
  refine xlat_congr (hm _ _ h.dir_free) fun g hg => hm _ _ ?_
  by_cases hw : n / 1024 = 957
  · rw [hw, h.self] at hg
    exact Option.some.inj hg ▸ h.dir_free
  · exact h.tbl_free _ _ (by omega) hw hg

section Store

variable {s : St} {dir : ℕ} {l : List ℕ} (h : Apart s dir l) {n f : ℕ} (hn : n < 1048576) (hw : n / 1024 ≠ 957)
  (hf : tbl s.mem dir (n / 1024) = some f) (v : Word)
include h hn hw hf

theorem Apart.tbl_store (d : ℕ) : tbl (s.mem.set f (n % 1024) v) dir d = tbl s.mem dir d := by
  have hne : dir ≠ f := (h.tbl_dir _ _ (by omega) hw hf).symm
  simp [tbl, Mem.set, hne]

/-- a store into the page table of page n is seen at page n and nowhere else -/
theorem Apart.xlat_store {n' : ℕ} (hn' : n' < 1048576) (hw' : n' / 1024 ≠ 957) :
    xlat (s.mem.set f (n % 1024) v) dir n' =
      if n' = n then (if present v then some v else none) else xlat s.mem dir n' := by
  have hne : dir ≠ f := (h.tbl_dir _ _ (by omega) hw hf).symm
  by_cases he : n' = n
  · subst he
    rw [if_pos rfl, xlat_of_tbl ((h.tbl_store hn hw hf v _).trans hf)]
    simp [Mem.set]
  · rw [if_neg he]
    refine xlat_congr (by simp [Mem.set, hne]) ?_
    intro g hg
    -- the same table at the same index would be the same page
    have hsep : ¬ (g = f ∧ n' % 1024 = n % 1024) := by
      rintro ⟨rfl, hi⟩
      have := h.tbl_inj _ _ _ (by omega) (by omega) hw' hw hg hf
      omega
    simp [Mem.set, hsep]

end Store

section Store

variable {s : St} {l : List ℕ} (h : Tables s l) {n f : ℕ} (hn : n < 1048576) (hw : n / 1024 ≠ 957)
  (hf : tbl s.mem s.dir (n / 1024) = some f) (v : Word)
include h hn hw hf

theorem tbl_store (d : ℕ) : tbl (s.mem.set f (n % 1024) v) s.dir d = tbl s.mem s.dir d :=
  h.apart.tbl_store hn hw hf v d

/-- the UVPT window, in which the directory is the page table, does not see the store either -/
theorem xlat_store {n' : ℕ} (hn' : n' < 1048576) :
    xlat (s.mem.set f (n % 1024) v) s.dir n' =
      if n' = n then (if present v then some v else none) else xlat s.mem s.dir n' := by
  by_cases hself : n' / 1024 = 957
  · have hne : s.dir ≠ f := (h.tbl_dir _ _ (by omega) hw hf).symm
    have hne' : n' ≠ n := fun e => hw (e ▸ hself)
    rw [if_neg hne']
    refine xlat_congr (by simp [Mem.set, hne]) ?_
    intro g hg
    rw [hself, h.self] at hg
    obtain rfl := Option.some.inj hg
    simp [Mem.set, hne]
  · exact h.apart.xlat_store hn hw hf v hn' hself

end Store

/-- memory with page p cleared and linked as the page table of entry d -/
def linkMem (m : Mem) (dir d p : ℕ) : Mem := (m.fill p nptentries 0#32).set dir d (tableEntry p)

section Link

variable {s : St} {p dir : ℕ} {l : List ℕ} (h : Apart s dir (p :: l)) {d : ℕ}
include h

theorem Apart.head_lt : p < 1048576 := by
  have h1 := h.free_lt p List.mem_cons_self
  have h2 := h.npages_le
  omega

theorem Apart.head_ne_dir : dir ≠ p := fun e => h.dir_free (e ▸ List.mem_cons_self)

theorem Apart.linkMem_dir (i : ℕ) : linkMem s.mem dir d p dir i = if i = d then tableEntry p else s.mem dir i := by
  simp [linkMem, Mem.set, Mem.fill, h.head_ne_dir]

theorem Apart.tbl_link (d' : ℕ) :
    tbl (linkMem s.mem dir d p) dir d' = if d' = d then some p else tbl s.mem dir d' := by
  have hp := h.head_lt
  unfold tbl
  rw [h.linkMem_dir]
  split_ifs <;> simp_all [present_tableEntry hp, pgnum_tableEntry hp]

theorem Apart.xlat_link (hn : tbl s.mem dir d = none) {n : ℕ} (hn' : n < 1048576) (hne : n / 1024 ≠ 957) :
    xlat (linkMem s.mem dir d p) dir n = xlat s.mem dir n := by
  have ht := h.tbl_link (d := d) (n / 1024)
  by_cases he : n / 1024 = d
  · -- the new table is empty, and there was none before
    rw [if_pos he] at ht
    rw [xlat_of_tbl ht, xlat_none (he ▸ hn)]
    have h0 : linkMem s.mem dir d p p (n % 1024) = 0#32 := by
      simp [linkMem, Mem.set, Mem.fill, h.head_ne_dir.symm, nptentries]
      omega
    rw [h0]
    exact if_neg (by decide)
  · rw [if_neg he] at ht
    refine xlat_congr (by rw [h.linkMem_dir, if_neg he]) ?_
    intro g hg
    have hgp : g ≠ p := fun e => h.tbl_free _ _ (by omega) hne hg (e ▸ List.mem_cons_self)
    have hgd := h.tbl_dir _ _ (by omega) hne hg
    simp [linkMem, Mem.set, Mem.fill, hgp, hgd]

end Link

section Link

variable {s : St} {p : ℕ} {l : List ℕ} (h : Tables s (p :: l)) {d : ℕ}
include h

theorem free_head_lt : p < 1048576 := h.apart.head_lt

theorem free_head_ne_dir : s.dir ≠ p := h.apart.head_ne_dir

theorem linkMem_dir (i : ℕ) : linkMem s.mem s.dir d p s.dir i = if i = d then tableEntry p else s.mem s.dir i :=
  h.apart.linkMem_dir i

theorem tbl_link (d' : ℕ) :
    tbl (linkMem s.mem s.dir d p) s.dir d' = if d' = d then some p else tbl s.mem s.dir d' := h.apart.tbl_link d'

theorem xlat_link (hn : tbl s.mem s.dir d = none) {n : ℕ} (hn' : n < 1048576) (hne : n / 1024 ≠ 957) :
    xlat (linkMem s.mem s.dir d p) s.dir n = xlat s.mem s.dir n := h.apart.xlat_link hn hn' hne

/-- in the UVPT window the new directory entry appears as a page of its own -/
theorem xlat_link_window (hw : d ≠ 957) {n : ℕ} (hne : n / 1024 = 957) :
    xlat (linkMem s.mem s.dir d p) s.dir n =
      if n % 1024 = d then some (tableEntry p) else xlat s.mem s.dir n := by
  have ht := tbl_link h (d := d) (n / 1024)
  rw [hne, if_neg (Ne.symm hw), h.self] at ht
  rw [xlat_of_tbl (hne ▸ ht), xlat_of_tbl (hne ▸ h.self), linkMem_dir h]
  split_ifs <;> simp_all [present_tableEntry (free_head_lt h)]

end Link

/-! ## pgdir_walk -/

/-- the state after pgdir_walk has linked page p as the page table of entry d -/
def St.linkTable (s : St) (dir d p : ℕ) : St :=
  ((((s.pop p).fill p nptentries 0#32).setRef p (s.ref p + 1#16)).setLink p none).emit (.store dir d (tableEntry p))

section Fields
variable (s : St) (dir d p : ℕ)

@[simp] theorem St.linkTable_free : (s.linkTable dir d p).pageFreeList = s.link p := rfl
@[simp] theorem St.linkTable_link : (s.linkTable dir d p).link = Function.update s.link p none := by
  simp [St.linkTable]
@[simp] theorem St.linkTable_ref : (s.linkTable dir d p).ref = Function.update s.ref p (s.ref p + 1#16) := by
  simp [St.linkTable]
@[simp] theorem St.linkTable_mem : (s.linkTable dir d p).mem = linkMem s.mem dir d p := rfl
@[simp] theorem St.linkTable_log : (s.linkTable dir d p).log =
    s.log ++ ([.alloc p] ++ fillEvs p 0#32 nptentries ++ [.store dir d (tableEntry p)]) := by
  simp [St.linkTable]

theorem St.fixed_linkTable : Fixed s (s.linkTable dir d p) :=
  ((((s.fixed_pop p).trans (fixed_fill ..)).trans (fixed_setRef ..)).trans (fixed_setLink ..)).trans (fixed_emit ..)

end Fields

section Runs

variable {s : St} {pgdir va : Word} {create : Bool}

theorem run_walk_found (hp : present (s.mem (frameOf pgdir) (pdx va)))
    (hlt : pgnum (s.mem (frameOf pgdir) (pdx va)) < s.npages.toNat) :
    (pgdirWalk pgdir va create).run s = .ok (some ⟨pgnum (s.mem (frameOf pgdir) (pdx va)), ptx va⟩, s) := by
  have hk := run_kaddr (s := s) (pteAddr (s.mem (frameOf pgdir) (pdx va))) (by rwa [pgnum_pteAddr])
  simp [pgdirWalk, hp, hk, frameOf_add, pgnum_pteAddr, -bind_pure_comp]

theorem run_walk_absent (create : Bool) (hp : ¬ present (s.mem (frameOf pgdir) (pdx va)))
    (hc : create = false ∨ s.pageFreeList = none) : (pgdirWalk pgdir va create).run s = .ok (none, s) := by
  by_cases hf : create = false
  · simp [pgdirWalk, hp, hf, -bind_pure_comp]
  · simp [pgdirWalk, hp, hf, run_pageAlloc_none (hc.resolve_left hf), -bind_pure_comp]

theorem run_walk_alloc {p : ℕ} (hp : ¬ present (s.mem (frameOf pgdir) (pdx va))) (hc : create = true)
    (hf : s.pageFreeList = some p) (hl : p < 1048576) (hlt : p < s.npages.toNat) :
    (pgdirWalk pgdir va create).run s = .ok (some ⟨p, ptx va⟩, s.linkTable (frameOf pgdir) (pdx va) p) := by
  have ha := run_pageAlloc_zero allocZero hf (by decide) hl hlt
  have hk := run_kaddr (s := s.linkTable (frameOf pgdir) (pdx va) p) (pteAddr (tableEntry p))
    (by rw [pgnum_pteAddr, pgnum_tableEntry hl, (s.fixed_linkTable ..).npages]; exact hlt)
  have ht : pgnum (pteAddr (tableEntry p)) = p := by rw [pgnum_pteAddr, pgnum_tableEntry hl]
  have hm : ∀ m : Mem, Ev.mem m (.store (frameOf pgdir) (pdx va) (tableEntry p)) (frameOf pgdir) (pdx va) =
      tableEntry p := fun m => by simp [Ev.mem, Mem.set]
  simp only [pgdirWalk, StateT.run_bind, run_ldw, ok_bind, hp, not_false_eq_true, if_true, hc, Bool.true_eq_false,
    if_false, ha, run_ldRef, run_stRef, run_stLink, run_stw, ← tableEntry.eq_def, St.emit_mem, hm, St.fill_ref,
    St.pop_ref, ← St.linkTable.eq_def, hk, run_pure, frameOf_add, ht]

end Runs

end Jos
