/-
The invariant of the page allocator and the page tables.

A page of physical memory has references from the slots of kern_pgdir: its directory entries other than the self entry
at 957 (`Slot.pde`), and the page table entries of the addresses below UTOP (`Slot.pte`, PGNUM(UTOP) = 977920).
`Inv own extra s l` instantiates `RefPool.Inv` with these slots and the counters pp_ref: l is the free list, the page
tables are distinct managed pages, and pp_ref counts the slots that name a page, plus `extra` references held elsewhere.

What the steps of pmap.c do to it:
- `Inv.pop`, `Inv.push`: page_alloc and page_free;
- `Inv.link`: pgdir_walk makes a page table;
- `Inv.incref`, `Inv.unmap`, `Inv.map`: page_insert takes a reference, the old page loses one, the new entry takes over
  the reference. Between the first and the last of them the reference of page_insert is an extra one.
-/
import Jos.Pmap.Map
import Jos.Pmap.Boot
import Jos.Lib.RefPool

namespace Jos

open Jos.Lib

/-- a place in kern_pgdir that names a page -/
inductive Slot where
  | pde (d : ℕ)
  | pte (n : ℕ)
deriving DecidableEq, Repr

def userSlots : Finset Slot := ((Finset.range 1024).erase 957).image .pde ∪ (Finset.range 977920).image .pte

theorem mem_pde {d : ℕ} : Slot.pde d ∈ userSlots ↔ d < 1024 ∧ d ≠ 957 := by
  simp [userSlots, and_comm]

theorem mem_pte {n : ℕ} : Slot.pte n ∈ userSlots ↔ n < 977920 := by
  simp [userSlots]

/-- the page a slot names -/
def named (m : Mem) (dir : ℕ) : Slot → Option ℕ
  | .pde d => tbl m dir d
  | .pte n => (xlat m dir n).map pgnum

def refs (s : St) (p : ℕ) : ℕ := (s.ref p).toNat

/-- `PADDR(kern_pgdir) | PTE_U | PTE_P` -/
def selfEntry (s : St) : Word := (s.kernPgdir - kernbase) ||| pteU ||| pteP

structure Inv (own : ℕ → Prop) (extra : ℕ → ℕ) (s : St) (l : List ℕ) : Prop where
  npages_le : s.npages.toNat ≤ 65536
  chain : FreeList s l
  self : s.mem s.dir 957 = selfEntry s
  dir_reserved : ¬ Managed s s.dir
  tbl_managed : ∀ d f, d < 1024 → d ≠ 957 → tbl s.mem s.dir d = some f → Managed s f
  tbl_inj : ∀ d d' f, d < 1024 → d' < 1024 → d ≠ 957 → d' ≠ 957 → tbl s.mem s.dir d = some f →
    tbl s.mem s.dir d' = some f → d = d'
  pool : RefPool.Inv userSlots (Managed s) own (named s.mem s.dir) l (refs s) extra
  link_none : ∀ p, Managed s p → p ∉ l → s.link p = none

theorem tbl_self {s : St} (h : s.mem s.dir 957 = selfEntry s) : tbl s.mem s.dir 957 = some s.dir := by
  have hp : present (selfEntry s) := present_entry _ _
  have hn : pgnum (selfEntry s) = s.dir := by
    rw [selfEntry, pgnum_or _ (by decide), pgnum_or _ (by decide)]
    rfl
  rw [tbl_eq_some, h]
  exact ⟨hp, hn⟩

section

variable {own : ℕ → Prop} {extra extra' : ℕ → ℕ} {s t : St} {l l' : List ℕ} {p : ℕ}

namespace Inv

theorem tbl_not_free (h : Inv own extra s l) {d f : ℕ} (hd : d < 1024) (hw : d ≠ 957)
    (hf : tbl s.mem s.dir d = some f) : f ∉ l :=
  h.pool.slot_not_free (σ := .pde d) (mem_pde.2 ⟨hd, hw⟩) hf

theorem tables (h : Inv own extra s l) : Tables s l where
  npages_le := h.npages_le
  chain := h.chain
  free_lt := fun p hp => (h.pool.free_pool p hp).1
  dir_free := fun hd => h.dir_reserved (h.pool.free_pool _ hd)
  self := tbl_self h.self
  tbl_lt := fun d f hd hw hf => (h.tbl_managed d f hd hw hf).1
  tbl_dir := fun d f hd hw hf e => h.dir_reserved (e ▸ h.tbl_managed d f hd hw hf)
  tbl_free := fun _ _ hd hw hf => h.tbl_not_free hd hw hf
  tbl_inj := h.tbl_inj

theorem mono {own' : ℕ → Prop} (h : Inv own extra s l) (ho : ∀ p, own p → own' p) : Inv own' extra s l :=
  { h with pool := { h.pool with slot_own := fun σ hσ p hp => ho p (h.pool.slot_own σ hσ p hp) } }

/-- the invariant of a state that keeps the globals, from what its list, counters and memory are -/
theorem build (h : Inv own extra s l) (hx : St.Fixed s t) (hc : FreeList t l')
    (hself : t.mem s.dir 957 = selfEntry s)
    (htm : ∀ d f, d < 1024 → d ≠ 957 → tbl t.mem s.dir d = some f → Managed s f)
    (hti : ∀ d d' f, d < 1024 → d' < 1024 → d ≠ 957 → d' ≠ 957 → tbl t.mem s.dir d = some f →
      tbl t.mem s.dir d' = some f → d = d')
    (hp : RefPool.Inv userSlots (Managed s) own (named t.mem s.dir) l' (refs t) extra')
    (hl : ∀ p, Managed s p → p ∉ l' → t.link p = none) : Inv own extra' t l' := by
  have hM := managed_fixed hx
  have hs : selfEntry t = selfEntry s := by unfold selfEntry; rw [hx.kernPgdir]
  constructor
  · rw [hx.npages]; exact h.npages_le
  · exact hc
  · rw [hx.dir, hs]; exact hself
  · rw [hM, hx.dir]; exact h.dir_reserved
  · rw [hM, hx.dir]; exact htm
  · rw [hx.dir]; exact hti
  · rw [hM, hx.dir]; exact hp
  · rw [hM]; exact hl

/-- a step that leaves memory alone -/
theorem build_mem (h : Inv own extra s l) (hx : St.Fixed s t) (hm : t.mem = s.mem) (hc : FreeList t l')
    (hp : RefPool.Inv userSlots (Managed s) own (named s.mem s.dir) l' (refs t) extra')
    (hl : ∀ p, Managed s p → p ∉ l' → t.link p = none) : Inv own extra' t l' :=
  h.build hx hc (by rw [hm]; exact h.self) (by rw [hm]; exact h.tbl_managed) (by rw [hm]; exact h.tbl_inj)
    (by rw [hm]; exact hp) hl

/-- page_alloc -/
theorem pop (h : Inv own extra s (p :: l)) : Inv own extra (s.pop p) l := by
  have hr : refs (s.pop p) = refs s := by funext q; simp [refs]
  refine h.build_mem (s.fixed_pop p) rfl h.chain.pop (hr ▸ h.pool.alloc) ?_
  intro q hq hql
  by_cases hqp : q = p
  · simp [hqp]
  · simpa [hqp] using h.link_none q hq (by simp [hqp, hql])

/-- page_free of a page without references -/
theorem push (h : Inv own extra s l) (hm : Managed s p) (hp : p ∉ l) (hr : s.ref p = 0#16) :
    Inv own extra (s.push p) (p :: l) := by
  have hr' : refs (s.push p) = refs s := by funext q; simp [refs]
  refine h.build_mem (s.fixed_push p) rfl (h.chain.push hp) (hr' ▸ h.pool.release hp hm (by simp [refs, hr])) ?_
  intro q hq hql
  rw [List.mem_cons, not_or] at hql
  simpa [hql.1] using h.link_none q hq hql.2

/-- the caller takes a reference -/
theorem incref (h : Inv own extra s l) (hp : p ∉ l) (hr : refs s p < 65535) :
    Inv own (Function.update extra p (extra p + 1)) (s.setRef p (s.ref p + 1#16)) l := by
  refine h.build_mem (St.fixed_setRef ..) rfl (h.chain.congr rfl (by simp)) (h.pool.incref hp ?_ ?_) (by
    simpa using h.link_none)
  · simp only [refs, St.setRef_ref, Function.update_self]
    unfold refs at hr
    bv_omega
  · intro q hq
    simp [refs, hq]

/-- pgdir_walk makes the page table of entry d -/
theorem link (h : Inv own extra s (p :: l)) {d : ℕ} (hd : d < 1024) (hw : d ≠ 957)
    (hn : tbl s.mem s.dir d = none) (ho : own p) : Inv own extra (s.linkTable s.dir d p) l := by
  have hT := h.tables
  have hpm : Managed s p := h.pool.free_pool p List.mem_cons_self
  have hpl : p ∉ l := (List.nodup_cons.1 h.pool.nodup).1
  have hr0 : refs s p = 0 := h.pool.free_ref p List.mem_cons_self
  have htbl := fun d' => tbl_link hT (d := d) d'
  have hlink : ∀ q, q ≠ p → (s.linkTable s.dir d p).link q = s.link q := fun q hq => by simp [hq]
  refine h.build (s.fixed_linkTable ..) ?_ ?_ ?_ ?_ ?_ ?_
  · exact Chain.congr h.chain.2 fun q hq => hlink q (ne_of_mem_of_not_mem hq hpl)
  · rw [St.linkTable_mem, linkMem_dir hT, if_neg (Ne.symm hw)]
    exact h.self
  · intro d' f hd' hw' hf
    rw [St.linkTable_mem, htbl] at hf
    split_ifs at hf with he
    · exact Option.some.inj hf ▸ hpm
    · exact h.tbl_managed d' f hd' hw' hf
  · intro d1 d2 f h1 h2 w1 w2 hf1 hf2
    rw [St.linkTable_mem, htbl] at hf1 hf2
    split_ifs at hf1 hf2 with e1 e2 e2
    · exact e1.trans e2.symm
    · cases hf1
      exact absurd List.mem_cons_self (h.tbl_not_free h2 w2 hf2)
    · cases hf2
      exact absurd List.mem_cons_self (h.tbl_not_free h1 w1 hf1)
    · exact h.tbl_inj d1 d2 f h1 h2 w1 w2 hf1 hf2
  · -- the page leaves the list with a reference, which the directory entry takes over
    have hinc : RefPool.Inv userSlots (Managed s) own (named s.mem s.dir) l (refs (s.linkTable s.dir d p))
        (Function.update extra p (extra p + 1)) := h.pool.alloc.incref hpl
      (by simp only [refs, St.linkTable_ref, Function.update_self]; unfold refs at hr0; bv_omega)
      (fun q hq => by simp [refs, hq])
    refine hinc.put (σ := .pde d) (p := p) (mem_pde.2 ⟨hd, hw⟩) hn ?_ ?_ ho (by simp) fun q hq => by simp [hq]
    · simp [named, htbl]
    · intro τ hτ hne
      cases τ with
      | pde d' =>
        have : d' ≠ d := fun e => hne (e ▸ rfl)
        simp [named, htbl, this]
      | pte n =>
        have := mem_pte.1 hτ
        simp only [named, St.linkTable_mem]
        rw [xlat_link hT hn (by omega) (by omega)]
  · intro q hq hql
    by_cases hqp : q = p
    · simp [hqp]
    · rw [hlink q hqp]
      exact h.link_none q hq (by simp [hqp, hql])

section Entry

variable {n f : ℕ} (hn : n < 977920) (hf : tbl s.mem s.dir (n / 1024) = some f)
include hn hf

/-- after a store into the page table of page n, only the slot of page n has changed -/
theorem named_store (h : Inv own extra s l) (v : Word) :
    named (s.mem.set f (n % 1024) v) s.dir (.pte n) = (if present v then some (pgnum v) else none) ∧
      RefPool.Else userSlots (.pte n) (named s.mem s.dir) (named (s.mem.set f (n % 1024) v) s.dir) := by
  have hT := h.tables
  refine ⟨?_, fun τ hτ hne => ?_⟩
  · simp only [named]
    rw [xlat_store hT (by omega) (by omega) hf v (by omega), if_pos rfl]
    split_ifs <;> rfl
  · cases τ with
    | pde d => exact tbl_store hT (by omega) (by omega) hf v d
    | pte m =>
      have := mem_pte.1 hτ
      have hmn : m ≠ n := fun e => hne (e ▸ rfl)
      simp only [named]
      rw [xlat_store hT (by omega) (by omega) hf v (by omega), if_neg hmn]

/-- the invariant after a step that ends with a store into the page table of page n -/
theorem build_store (h : Inv own extra s l) (hx : St.Fixed s t) {v : Word} (hm : t.mem = s.mem.set f (n % 1024) v)
    (hc : FreeList t l')
    (hp : RefPool.Inv userSlots (Managed s) own (named (s.mem.set f (n % 1024) v) s.dir) l' (refs t) extra')
    (hl : ∀ p, Managed s p → p ∉ l' → t.link p = none) : Inv own extra' t l' := by
  have hT := h.tables
  have hne : s.dir ≠ f := (hT.tbl_dir _ _ (by omega) (by omega) hf).symm
  have htbl := tbl_store hT (by omega) (by omega) hf v
  refine h.build hx hc ?_ ?_ ?_ (hm ▸ hp) hl
  · rw [hm]; simpa [Mem.set, hne] using h.self
  · simp only [hm, htbl]; exact h.tbl_managed
  · simp only [hm, htbl]; exact h.tbl_inj

/-- the entry of page n, which was not present, takes over a reference to page p -/
theorem map (h : Inv own extra s l) (hx : xlat s.mem s.dir n = none) {v : Word} (hv : present v) (hpv : pgnum v = p)
    (ho : own p) (he : extra p = extra' p + 1) (he' : ∀ q, q ≠ p → extra' q = extra q) :
    Inv own extra' (s.emit (.store f (n % 1024) v)) l := by
  obtain ⟨h1, h2⟩ := named_store hn hf h v
  refine h.build_store hn hf (St.fixed_emit ..) rfl (h.chain.congr rfl (by simp)) ?_ (by simpa using h.link_none)
  exact h.pool.put (mem_pte.2 hn) (by simp [named, hx]) (by rw [h1, if_pos hv, hpv]) h2 ho he he'

/-- the entry of page n is removed, and the page it named loses a reference -/
theorem unmap (h : Inv own extra s l) (va : Word) {q : ℕ} (hp : present (s.mem f (n % 1024)))
    (hq : pgnum (s.mem f (n % 1024)) = q) (ho : Managed s q ∨ 0 < extra q) :
    Inv own extra (s.unmap f (n % 1024) q va) (if s.ref q = 1#16 then q :: l else l) := by
  have hslot : named s.mem s.dir (.pte n) = some q := by
    simp [named, xlat_of_tbl hf, hp, hq]
  have hql : q ∉ l := h.pool.slot_not_free (mem_pte.2 hn) hslot
  have hr : refs s q = refs (s.unmap f (n % 1024) q va) q + 1 := by
    have := h.pool.ref_eq q
    have := RefPool.uses_pos_of_mem (mem_pte.2 hn) hslot
    simp only [refs, St.unmap_ref, Function.update_self] at *
    bv_omega
  have hif : (refs (s.unmap f (n % 1024) q va) q = 0) ↔ s.ref q = 1#16 := by
    unfold refs at hr ⊢
    bv_omega
  obtain ⟨h1, h2⟩ := named_store hn hf h 0#32
  have hpool := h.pool.take (mem_pte.2 hn) hslot (h1.trans (if_neg not_present_zero)) h2 ho hr
    (fun p hpq => by simp [refs, hpq])
  simp only [hif] at hpool
  refine h.build_store hn hf (s.fixed_unmap ..) (by simp) ?_ hpool ?_
  · unfold St.unmap St.decref
    split_ifs
    · exact FreeList.push (s := s.setRef q 0#16) (h.chain.congr rfl (by simp)) hql
    · exact h.chain.congr rfl (by simp)
  · intro p hp hpl
    rw [St.unmap_link]
    unfold St.decref
    split_ifs at hpl ⊢ with h1
    · rw [List.mem_cons, not_or] at hpl
      simpa [hpl.1] using h.link_none p hp hpl.2
    · simpa using h.link_none p hp hpl

end Entry

end Inv

end

end Jos
