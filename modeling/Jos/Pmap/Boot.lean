/-
Boot: i386_detect_memory, boot_alloc and page_init of kern/pmap.c.

`kend` is the linker symbol `end`, `cmos` what the real-time clock returns for its registers. page_init first threads
all pages onto the list, then walks it with a pointer to a pointer and takes the reserved pages out:
- `run_bootAlloc`: boot_alloc(0) returns nextfree, a request that fits below 4MB is served at nextfree, any other panics;
- `pageInit_spec`: page_init ends with the free list in descending order, exactly the pages it does not reserve;
- `pageInit_exact`: the same list by the physical addresses, for any number of pages.
-/
import Jos.Pmap.Alloc

namespace Jos

open Jos.Lib

/-! ## Memory detection -/

/-- inb returns one byte -/
def mc146818Read (cmos : ℕ → BitVec 8) (reg : ℕ) : Word := (cmos reg).setWidth 32

def nvramRead (cmos : ℕ → BitVec 8) (r : ℕ) : Word := mc146818Read cmos r ||| (mc146818Read cmos (r + 1) <<< 8)

/-- kern/kclock.h: `MC_NVRAM_START + 7`, `+ 9`, `+ 38` -/
def nvramBaselo : ℕ := 0xe + 7
def nvramExtlo : ℕ := 0xe + 9
def nvramExt16lo : ℕ := 0xe + 38

/-- memory in KB -/
def totalmem (basemem extmem ext16mem : Word) : Word :=
  if ext16mem ≠ 0#32 then 16 * 1024 + ext16mem
  else if extmem ≠ 0#32 then 1 * 1024 + extmem
  else basemem

def St.setNpages (s : St) (npages npagesBasemem : Word) : St :=
  { s with npages := npages, npagesBasemem := npagesBasemem }

def i386DetectMemory (cmos : ℕ → BitVec 8) : K Unit := do
  let basemem := nvramRead cmos nvramBaselo
  let extmem := nvramRead cmos nvramExtlo
  let ext16mem := nvramRead cmos nvramExt16lo * 64
  let totalmem := totalmem basemem extmem ext16mem
  modify fun s => s.setNpages (totalmem / (pgsize / 1024)) (basemem / (pgsize / 1024))

/-! ## boot_alloc -/

def bootAlloc (kend n : Word) : K Word := do
  if (← get).nextfree = 0#32 then
    modify fun s => { s with nextfree := roundup kend pgsize }
  if n = 0#32 then
    return (← get).nextfree
  -- only the 4MB that entry_pgdir maps, not the whole RAM
  let volnychBytov := 4 * 1024 * 1024 - (← paddr (← get).nextfree)
  if n ≤ volnychBytov then
    let result := (← get).nextfree
    modify fun s => { s with nextfree := roundup (result + n) pgsize }
    return result
  else
    panic "boot_alloc() - nedostatok volnej pamate na alokovanie %d bytov\n"

/-! ## page_init -/

/-- a `struct PageInfo **`: the address of page_free_list or of a pp_link -/
inductive LinkRef where
  | freeList
  | link (i : ℕ)
deriving DecidableEq, Repr

def LinkRef.load : LinkRef → K (Option ℕ)
  | .freeList => ldFree
  | .link i => ldLink i

def LinkRef.store (v : Option ℕ) : LinkRef → K Unit
  | .freeList => stFree v
  | .link i => stLink i v

/-- the first n rounds of `for (i = 0; i < npages; i++)` -/
def pageInitFill : ℕ → K Unit
  | 0 => return ()
  | i + 1 => do
    pageInitFill i
    stRef i 0#16
    stLink i (← ldFree)
    stFree (some i)

/-- `page2pa(pp) >= IOPHYSMEM && page2pa(pp) < PADDR(boot_alloc(0))` -/
def pageInitHole (kend : Word) (pp : ℕ) : K Bool := do
  if iophysmem ≤ page2pa pp then
    return decide (page2pa pp < (← paddr (← bootAlloc kend 0#32)))
  else
    return false

/-- `while (*smernik != NULL)` -/
def pageInitSweep (kend : Word) : ℕ → LinkRef → K Unit
  | 0, _ => throw .diverge
  | fuel + 1, smernik => do
    match ← smernik.load with
    | none => return ()
    | some pp =>
      if ← pageInitHole kend pp then
        stRef pp 1#16
        let pomocny ← ldLink pp
        stLink pp none
        smernik.store pomocny
        pageInitSweep kend fuel smernik
      else if page2pa pp = 0#32 then
        stRef pp 1#16
        let pomocny ← ldLink pp
        stLink pp none
        smernik.store pomocny
        pageInitSweep kend fuel smernik
      else
        pageInitSweep kend fuel (.link pp)

def pageInit (kend : Word) : K Unit := do
  let n := (← get).npages.toNat
  pageInitFill n
  pageInitSweep kend (n + 1) .freeList

/-- the pages page_init takes off the list -/
def Reserved (s : St) (i : ℕ) : Prop :=
  (iophysmem ≤ page2pa i ∧ page2pa i < s.nextfree - kernbase) ∨ page2pa i = 0#32

instance (s : St) (i : ℕ) : Decidable (Reserved s i) := inferInstanceAs (Decidable (_ ∨ _))

/-- a page that page_init left to the allocator -/
def Managed (s : St) (i : ℕ) : Prop := i < s.npages.toNat ∧ ¬ Reserved s i

instance (s : St) (i : ℕ) : Decidable (Managed s i) := inferInstanceAs (Decidable (_ ∧ _))

/-- the managed pages by their addresses -/
theorem managed_iff {s : St} {i : ℕ} (hi : i < 1048576) : Managed s i ↔
    i < s.npages.toNat ∧ i ≠ 0 ∧ (i * 4096 < 0xA0000 ∨ (s.nextfree - kernbase).toNat ≤ i * 4096) := by
  have hpa := page2pa_toNat hi
  have hio : iophysmem.toNat = 0xA0000 := rfl
  have hz : page2pa i = 0#32 ↔ i = 0 := by
    rw [← BitVec.toNat_inj, hpa]
    simp
  unfold Managed Reserved
  rw [BitVec.le_def, BitVec.lt_def, hpa, hio, hz]
  omega

theorem reserved_fixed {s t : St} (h : St.Fixed s t) (i : ℕ) : Reserved t i ↔ Reserved s i := by
  unfold Reserved; rw [h.nextfree]

theorem managed_fixed {s t : St} (h : St.Fixed s t) : Managed t = Managed s := by
  funext i
  exact propext (and_congr (by rw [h.npages]) (not_congr (reserved_fixed h i)))

/-! ## What boot_alloc does -/

section BootAlloc

variable {s : St} {kend n : Word}

theorem run_bootAlloc_zero (h : s.nextfree ≠ 0#32) : (bootAlloc kend 0#32).run s = .ok (s.nextfree, s) := by
  simp [bootAlloc, h]

/-- bytes left below 4MB -/
def bytesLeft (nextfree : Word) : Word := 0x400000#32 - (nextfree - kernbase)

def St.setNextfree (s : St) (v : Word) : St := { s with nextfree := v }

section
variable (s : St) (v w : Word)

@[simp] theorem St.setNextfree_nextfree : (s.setNextfree v).nextfree = v := rfl
@[simp] theorem St.setNextfree_npages : (s.setNextfree v).npages = s.npages := rfl
@[simp] theorem St.setNextfree_npagesBasemem : (s.setNextfree v).npagesBasemem = s.npagesBasemem := rfl
@[simp] theorem St.setNextfree_kernPgdir : (s.setNextfree v).kernPgdir = s.kernPgdir := rfl
@[simp] theorem St.setNextfree_free : (s.setNextfree v).pageFreeList = s.pageFreeList := rfl
@[simp] theorem St.setNextfree_mem : (s.setNextfree v).mem = s.mem := rfl
@[simp] theorem St.setNextfree_log : (s.setNextfree v).log = s.log := rfl
@[simp] theorem St.setNextfree_self : s.setNextfree s.nextfree = s := rfl
@[simp] theorem St.setNextfree_setNextfree : (s.setNextfree v).setNextfree w = s.setNextfree w := rfl

end

theorem run_bootAlloc (h : kernbase ≤ s.nextfree) (hn : n ≠ 0#32) : (bootAlloc kend n).run s =
    if n ≤ bytesLeft s.nextfree then .ok (s.nextfree, s.setNextfree (roundup (s.nextfree + n) pgsize))
    else .error (.panic "boot_alloc() - nedostatok volnej pamate na alokovanie %d bytov\n") := by
  have h0 : s.nextfree ≠ 0#32 := fun e => by rw [e] at h; exact absurd h (by decide)
  by_cases hle : n ≤ bytesLeft s.nextfree
  · have hle' : n ≤ 0x400000#32 - (s.nextfree - kernbase) := hle
    simp [bootAlloc, h0, hn, run_paddr h, hle', hle, St.setNextfree, -bind_pure_comp]
  · have hle' : ¬ n ≤ 0x400000#32 - (s.nextfree - kernbase) := hle
    simp [bootAlloc, h0, hn, run_paddr h, hle', hle]

/-- the first call sets nextfree to the end of the kernel -/
theorem run_bootAlloc_first (h : s.nextfree = 0#32) (hk : roundup kend pgsize ≠ 0#32) :
    (bootAlloc kend n).run s = (bootAlloc kend n).run (s.setNextfree (roundup kend pgsize)) := by
  simp [bootAlloc, h, hk, St.setNextfree]

end BootAlloc

/-! ## What page_init does -/

/-- nothing but the list and the `pages` array has changed -/
structure ListOnly (s t : St) : Prop extends St.Fixed s t where
  mem : t.mem = s.mem
  log : t.log = s.log

theorem ListOnly.refl (s : St) : ListOnly s s := ⟨St.Fixed.refl s, rfl, rfl⟩

theorem ListOnly.trans {s t u : St} (h1 : ListOnly s t) (h2 : ListOnly t u) : ListOnly s u :=
  ⟨h1.toFixed.trans h2.toFixed, h2.mem.trans h1.mem, h2.log.trans h1.log⟩

/-- after n rounds the pages below n are on the list, the last one first, and the others are untouched -/
theorem pageInitFill_spec (n : ℕ) {s : St} (h : s.pageFreeList = none) :
    ∃ t, (pageInitFill n).run s = .ok ((), t) ∧ ListOnly s t ∧ FreeList t (List.range n).reverse ∧
      (∀ i < n, t.ref i = 0#16) ∧ ∀ i, n ≤ i → t.pages i = s.pages i := by
  induction n with
  | zero => exact ⟨s, rfl, ListOnly.refl s, by simpa [FreeList, chain_nil] using h, by simp, fun _ _ => rfl⟩
  | succ n ih =>
    obtain ⟨t, ht, hlo, hch, hr, hrest⟩ := ih
    refine ⟨(t.setRef n 0#16).push n, ?_, ⟨hlo.toFixed.trans ((St.fixed_setRef ..).trans (St.fixed_push ..)), ?_, ?_⟩,
      ?_, ?_, ?_⟩
    · rw [pageInitFill, Prog.run_bind ht]
      simp [St.push]
    · exact hlo.mem
    · exact hlo.log
    · rw [List.range_succ, List.reverse_append]
      exact FreeList.push (s := t.setRef n 0#16) (hch.congr rfl fun _ _ => by simp) (by simp)
    · intro i hi
      by_cases hin : i = n
      · simp [hin]
      · simpa [hin] using hr i (by omega)
    · intro i hi
      have hin : i ≠ n := by omega
      rw [← hrest i (by omega)]
      simp [St.push, St.setLink, St.setRef, St.setFree, hin]

def LinkRef.val (s : St) : LinkRef → Option ℕ
  | .freeList => s.pageFreeList
  | .link i => s.link i

def LinkRef.write (s : St) (v : Option ℕ) : LinkRef → St
  | .freeList => s.setFree v
  | .link i => s.setLink i v

theorem LinkRef.run_load (r : LinkRef) (s : St) : r.load.run s = .ok (r.val s, s) := by cases r <;> rfl

theorem LinkRef.run_store (r : LinkRef) (s : St) (v : Option ℕ) :
    (r.store v).run s = .ok ((), r.write s v) := by cases r <;> rfl

/-- page p, which r points at, leaves the list for good -/
def St.reserve (s : St) (r : LinkRef) (p : ℕ) : St := r.write ((s.setRef p 1#16).setLink p none) (s.link p)

section Reserve

variable (s : St) (r : LinkRef) (p : ℕ)

theorem St.reserve_listOnly : ListOnly s (s.reserve r p) := by
  cases r with
  | freeList => exact ⟨((fixed_setRef ..).trans (fixed_setLink ..)).trans (fixed_setFree ..), rfl, rfl⟩
  | link i => exact ⟨((fixed_setRef ..).trans (fixed_setLink ..)).trans (fixed_setLink ..), rfl, rfl⟩

theorem St.reserve_val : r.val (s.reserve r p) = s.link p := by
  cases r with
  | freeList => rfl
  | link i => simp [LinkRef.val, St.reserve, LinkRef.write]

theorem St.reserve_ref : (s.reserve r p).ref = Function.update s.ref p 1#16 := by
  cases r <;> simp [St.reserve, LinkRef.write]

theorem St.reserve_free (h : r ≠ .freeList) : (s.reserve r p).pageFreeList = s.pageFreeList := by
  cases r with
  | freeList => exact absurd rfl h
  | link i => rfl

theorem St.reserve_pages {i : ℕ} (hp : i ≠ p) (hr : r ≠ .link i) : (s.reserve r p).pages i = s.pages i := by
  cases r with
  | freeList => simp [St.reserve, LinkRef.write, St.setFree, St.setLink, St.setRef, hp]
  | link j =>
    have hj : i ≠ j := fun e => hr (e ▸ rfl)
    simp [St.reserve, LinkRef.write, St.setLink, St.setRef, hp, hj]

theorem St.reserve_link (hr : r ≠ .link p) : (s.reserve r p).link p = none := by
  cases r with
  | freeList => simp [St.reserve, LinkRef.write]
  | link j =>
    have hj : p ≠ j := fun e => hr (e ▸ rfl)
    simp [St.reserve, LinkRef.write, hj]

end Reserve

theorem run_hole {s : St} {kend : Word} (hn : kernbase ≤ s.nextfree) (p : ℕ) :
    (pageInitHole kend p).run s = .ok (decide (iophysmem ≤ page2pa p ∧ page2pa p < s.nextfree - kernbase), s) := by
  have h0 : s.nextfree ≠ 0#32 := fun e => by rw [e] at hn; exact absurd hn (by decide)
  by_cases hio : iophysmem ≤ page2pa p
  · simp [pageInitHole, hio, run_bootAlloc_zero h0, run_paddr hn]
  · simp [pageInitHole, hio]

/-- one round of the sweep: a reserved page leaves the list, any other is stepped over -/
theorem run_sweep_step {s : St} {kend : Word} {fuel : ℕ} {r : LinkRef} {p : ℕ} (hn : kernbase ≤ s.nextfree)
    (hr : r.val s = some p) :
    (pageInitSweep kend (fuel + 1) r).run s =
      if Reserved s p then (pageInitSweep kend fuel r).run (s.reserve r p)
      else (pageInitSweep kend fuel (.link p)).run s := by
  have hst : ∀ (t : St) (v : Option ℕ), (r.store v).run t = .ok ((), r.write t v) := r.run_store
  rw [pageInitSweep, Prog.run_bind ((r.run_load s).trans (by rw [hr])), Prog.run_bind (run_hole hn p)]
  by_cases hd : iophysmem ≤ page2pa p ∧ page2pa p < s.nextfree - kernbase
  · simp [hd, Reserved, St.reserve, hst]
  · by_cases hz : page2pa p = 0#32
    · simp [hz, Reserved, St.reserve, hst]
    · simp [hd, hz, Reserved]

theorem run_sweep_end {s : St} {kend : Word} {fuel : ℕ} {r : LinkRef} (hr : r.val s = none) :
    (pageInitSweep kend (fuel + 1) r).run s = .ok ((), s) := by
  rw [pageInitSweep, Prog.run_bind ((r.run_load s).trans (by rw [hr]))]
  rfl

/-- The rest b of the list, behind r, is swept: its reserved pages are marked and unlinked, the others stay in order,
and only pages of b and the cell r are written. -/
theorem pageInitSweep_spec (kend : Word) (b : List ℕ) {s : St} {r : LinkRef} (fuel : ℕ) (hn : kernbase ≤ s.nextfree)
    (hb : Chain s.link (r.val s) b) (hr : ∀ i ∈ b, r ≠ .link i) (hf : b.length < fuel) :
    ∃ t, (pageInitSweep kend fuel r).run s = .ok ((), t) ∧ ListOnly s t ∧
      Chain t.link (r.val t) (b.filter fun i => ¬ Reserved s i) ∧
      (r ≠ .freeList → t.pageFreeList = s.pageFreeList) ∧
      (∀ i, i ∉ b → r ≠ .link i → t.pages i = s.pages i) ∧
      (∀ i, ¬ (i ∈ b ∧ Reserved s i) → t.ref i = s.ref i) ∧
      ∀ i ∈ b, Reserved s i → t.ref i = 1#16 ∧ t.link i = none := by
  induction b generalizing s r fuel with
  | nil =>
    obtain ⟨fuel, rfl⟩ : ∃ k, fuel = k + 1 := ⟨fuel - 1, by simp at hf; omega⟩
    exact ⟨s, run_sweep_end hb, ListOnly.refl s, hb, fun _ => rfl, fun _ _ _ => rfl, fun _ _ => rfl, by simp⟩
  | cons p b ih =>
    obtain ⟨fuel, rfl⟩ : ∃ k, fuel = k + 1 := ⟨fuel - 1, by simp at hf; omega⟩
    have hpb : p ∉ b := (List.nodup_cons.1 hb.nodup).1
    rw [run_sweep_step hn hb.1]
    have hrp : r ≠ .link p := hr p List.mem_cons_self
    by_cases hres : Reserved s p
    · -- p is unlinked: the list behind r is now b
      have hlo := s.reserve_listOnly r p
      have hR : ∀ i, Reserved (s.reserve r p) i ↔ Reserved s i := reserved_fixed hlo.toFixed
      have hsame : ∀ i, i ≠ p → r ≠ .link i → (s.reserve r p).pages i = s.pages i := fun i => s.reserve_pages r p
      have hb' : Chain (s.reserve r p).link (r.val (s.reserve r p)) b := by
        rw [s.reserve_val]
        refine Chain.congr hb.2 ?_
        intro i hi
        unfold St.link
        rw [hsame i (ne_of_mem_of_not_mem hi hpb) (hr i (List.mem_cons_of_mem p hi))]
      obtain ⟨t, ht, htl, htc, htf, hts, htr, htm⟩ := ih fuel (by rw [hlo.nextfree]; exact hn) hb'
        (fun i hi => hr i (List.mem_cons_of_mem p hi)) (by simp at hf; omega)
      rw [if_pos hres]
      refine ⟨t, ht, hlo.trans htl, ?_, fun h => (htf h).trans (s.reserve_free r p h), ?_, ?_, ?_⟩
      · simpa [hR, hres] using htc
      · intro i hi hri
        rw [List.mem_cons, not_or] at hi
        exact (hts i hi.2 hri).trans (hsame i hi.1 hri)
      · intro i hi
        have hip : i ≠ p := fun e => hi ⟨e ▸ List.mem_cons_self, e ▸ hres⟩
        rw [htr i fun h => hi ⟨List.mem_cons_of_mem p h.1, (hR i).1 h.2⟩, s.reserve_ref, Function.update_of_ne hip]
      · intro i hi hri
        rcases List.mem_cons.1 hi with rfl | hi
        · refine ⟨?_, ?_⟩
          · rw [htr i fun h => hpb h.1, s.reserve_ref, Function.update_self]
          · have : t.link i = (s.reserve r i).link i := by unfold St.link; rw [hts i hpb hrp]
            rw [this, s.reserve_link r i hrp]
        · exact htm i hi ((hR i).2 hri)
    · -- p stays, and the cell behind which the rest of the list hangs is now its link
      obtain ⟨t, ht, htl, htc, htf, hts, htr, htm⟩ := ih (r := .link p) fuel hn hb.2
        (fun i hi e => hpb (LinkRef.link.inj e ▸ hi)) (by simp at hf; omega)
      have hval : r.val t = r.val s := by
        cases r with
        | freeList => exact htf (by simp)
        | link i =>
          have hib : i ∉ b := fun hi => hr i (List.mem_cons_of_mem p hi) rfl
          have hip : i ≠ p := fun e => hrp (e ▸ rfl)
          simp only [LinkRef.val, St.link]
          rw [hts i hib fun e => hip (LinkRef.link.inj e).symm]
      rw [if_neg hres]
      refine ⟨t, ht, htl, ?_, fun _ => htf (by simp), ?_, ?_, ?_⟩
      · rw [List.filter_cons_of_pos (by simpa using hres)]
        exact ⟨hval.trans hb.1, htc⟩
      · intro i hi _
        rw [List.mem_cons, not_or] at hi
        exact hts i hi.2 fun e => hi.1 (LinkRef.link.inj e).symm
      · exact fun i hi => htr i fun h => hi ⟨List.mem_cons_of_mem p h.1, h.2⟩
      · intro i hi hri
        rcases List.mem_cons.1 hi with rfl | hi
        · exact absurd hri hres
        · exact htm i hi hri

/-- the pages page_init leaves on the list, highest first -/
def initFree (s : St) : List ℕ := (List.range s.npages.toNat).reverse.filter fun i => ¬ Reserved s i

theorem mem_initFree {s : St} {i : ℕ} : i ∈ initFree s ↔ Managed s i := by
  simp [initFree, Managed]

/-- **page_init.** From an empty list: the free list is `initFree`, its pages have no reference, every page taken off has
one reference and no link, and nothing else changes. -/
theorem pageInit_spec {s : St} (kend : Word) (hn : kernbase ≤ s.nextfree) (hf : s.pageFreeList = none) :
    ∃ t, (pageInit kend).run s = .ok ((), t) ∧ ListOnly s t ∧ FreeList t (initFree s) ∧
      (∀ i, Managed s i → t.ref i = 0#16) ∧
      (∀ i < s.npages.toNat, Reserved s i → t.ref i = 1#16 ∧ t.link i = none) ∧
      ∀ i, s.npages.toNat ≤ i → t.pages i = s.pages i := by
  obtain ⟨u, hu, hul, huc, hur, hus⟩ := pageInitFill_spec s.npages.toNat hf
  have hR : ∀ i, Reserved u i ↔ Reserved s i := reserved_fixed hul.toFixed
  obtain ⟨t, ht, htl, htc, -, hts, htr, htm⟩ := pageInitSweep_spec kend
    (List.range s.npages.toNat).reverse (r := .freeList) (s.npages.toNat + 1) (by rw [hul.nextfree]; exact hn) huc (by simp)
    (by simp)
  refine ⟨t, ?_, hul.trans htl, ?_, ?_, ?_, ?_⟩
  · simp [pageInit, hu, ht]
  · simpa [FreeList, initFree, hR, LinkRef.val] using htc
  · intro i hi
    rw [htr i fun h => hi.2 ((hR i).1 h.2), hur i hi.1]
  · exact fun i hi hri => htm i (by simpa using hi) ((hR i).2 hri)
  · exact fun i hi => (hts i (by simpa using hi) (by simp)).trans (hus i hi)

/-! ## page_init, address by address -/

theorem initFree_pairwise (s : St) : (initFree s).Pairwise (· > ·) := by
  have h : (List.range s.npages.toNat).reverse.Pairwise (· > ·) := List.pairwise_reverse.2 List.pairwise_lt_range
  exact h.filter _

/-- boot_alloc(0) that returns the address F and changes nothing: nextfree is F -/
theorem bootAlloc_zero_ok {s : St} {kend F pa : Word} (hF : (bootAlloc kend 0#32).run s = .ok (F, s))
    (hpa : (paddr F).run s = .ok (pa, s)) : kernbase ≤ s.nextfree ∧ F = s.nextfree ∧ pa = s.nextfree - kernbase := by
  obtain ⟨hge, rfl, -⟩ := paddr_ok.1 hpa
  have hFn : F = s.nextfree := by
    by_cases h0 : s.nextfree = 0#32
    · -- the first call would set nextfree, so it would change the state unless it returned 0
      have hrun : (bootAlloc kend 0#32).run s =
          .ok (roundup kend pgsize, { s with nextfree := roundup kend pgsize }) := by
        simp [bootAlloc, h0]
      rw [hrun] at hF
      obtain ⟨h1, h2⟩ := Prod.mk.inj (Except.ok.inj hF)
      rw [← h1, ← h2]
    · rw [run_bootAlloc_zero h0] at hF
      exact (Prod.mk.inj (Except.ok.inj hF)).1.symm
  exact ⟨hFn ▸ hge, hFn, by rw [hFn]⟩

/-- the list by its members -/
theorem pageInit_managed {s : St} (kend : Word) (hn : kernbase ≤ s.nextfree) (hf : s.pageFreeList = none) :
    ∃ t l, (pageInit kend).run s = .ok ((), t) ∧ FreeList t l ∧ ∀ i, i ∈ l ↔ Managed s i := by
  obtain ⟨t, ht, -, hl, -⟩ := pageInit_spec kend hn hf
  exact ⟨t, initFree s, ht, hl, fun _ => mem_initFree⟩

/-- memory before page_init: the kernel and what boot_alloc has given out end at 2MB -/
def preInitSt (npages : Word) : St where
  npages := npages
  npagesBasemem := 160
  kernPgdir := 0xF0118000
  pagesVa := 0xF0119000
  pages := fun _ => ⟨none, 0⟩
  pageFreeList := none
  nextfree := 0xF0200000
  cr3 := 0x117000
  mem := fun _ _ => 0
  log := []

/-- **page_init is exact.** Its list is strictly descending and has the pages whose physical address, a 32-bit number, is
not 0 and not in the hole from IOPHYSMEM to PADDR(F). Below 4GB these are the pages i with 0 < i. -/
theorem pageInit_exact (kend F pa : Word) (s : St) (hF : (bootAlloc kend 0#32).run s = .ok (F, s))
    (hpa : (paddr F).run s = .ok (pa, s)) (hl : s.pageFreeList = none) :
    ∃ t l, (pageInit kend).run s = .ok ((), t) ∧ FreeList t l ∧ l.Pairwise (· > ·) ∧
      (∀ i, i ∈ l ↔ i < s.npages.toNat ∧ page2pa i ≠ 0#32 ∧ (page2pa i < iophysmem ∨ pa ≤ page2pa i)) ∧
      (∀ i < 1048576, i ∈ l ↔ 0 < i ∧ i < s.npages.toNat ∧
        (i * pgsize.toNat < iophysmem.toNat ∨ pa.toNat ≤ i * pgsize.toNat)) ∧
      (∀ i ∈ l, t.ref i = 0#16) ∧
      (∀ i < s.npages.toNat, i ∉ l → t.ref i = 1#16 ∧ t.link i = none) ∧
      (∀ i, s.npages.toNat ≤ i → t.pages i = s.pages i) ∧ ListOnly s t := by
  obtain ⟨hn, -, rfl⟩ := bootAlloc_zero_ok hF hpa
  obtain ⟨t, ht, hlo, hc, hr, hres, hrest⟩ := pageInit_spec kend hn hl
  refine ⟨t, initFree s, ht, hc, initFree_pairwise s, ?_, ?_, ?_, ?_,
    hrest, hlo⟩
  · intro i
    rw [mem_initFree, Managed, Reserved, not_or, not_and_or, BitVec.not_le, BitVec.not_lt, and_comm (b := _ ≠ _)]
  · intro i hi
    rw [mem_initFree, managed_iff hi]
    have hsz : pgsize.toNat = 4096 := rfl
    have hio : iophysmem.toNat = 0xA0000 := rfl
    rw [hsz, hio]
    omega
  · intro i hi
    exact hr i (mem_initFree.1 hi)
  · intro i hi hni
    exact hres i hi (by by_contra hm; exact hni (mem_initFree.2 ⟨hi, hm⟩))

/-- on 1024 pages, page 512 at 2MB is listed and page 160 at IOPHYSMEM is not -/
theorem pageInit_exact_1024 : ∃ t l, (pageInit 0xF0117123#32).run (preInitSt 1024#32) = .ok ((), t) ∧ FreeList t l ∧
    512 ∈ l ∧ 160 ∉ l := by
  obtain ⟨t, l, ht, hl, -, -, hlow, -⟩ := pageInit_exact 0xF0117123#32 0xF0200000#32 0x200000#32 (preInitSt 1024#32)
    (run_bootAlloc_zero (by decide)) (run_paddr (by decide)) rfl
  exact ⟨t, l, ht, hl, (hlow 512 (by decide)).2 (by decide), fun h => absurd ((hlow 160 (by decide)).1 h) (by decide)⟩

/-- With more than 4GB of pages the addresses wrap: page 1048576 lies above F and is not listed. -/
theorem pageInit_drops_wrapped_page : ∃ t l, (pageInit 0xF0117123#32).run (preInitSt 0x100001#32) = .ok ((), t) ∧
    FreeList t l ∧ ¬ ∀ i, i ∈ l ↔ 0 < i ∧ i < (preInitSt 0x100001#32).npages.toNat ∧
      (i * pgsize.toNat < iophysmem.toNat ∨ (0x200000#32).toNat ≤ i * pgsize.toNat) := by
  obtain ⟨t, l, ht, hl, hmem⟩ := pageInit_managed (s := preInitSt 0x100001#32) 0xF0117123#32 (by decide) rfl
  refine ⟨t, l, ht, hl, fun h => ?_⟩
  have hz : page2pa 1048576 = 0#32 := by decide
  obtain ⟨-, hres⟩ := (hmem 1048576).1 ((h 1048576).2 (by decide))
  exact hres (Or.inr hz)

end Jos
