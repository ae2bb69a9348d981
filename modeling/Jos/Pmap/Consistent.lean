/-
Page conservation: every managed page is free, held by a caller, or in use.

`Consistent s` says this in the terms of pmap.c: the free list, pp_link and pp_ref of each page, and the entries of
kern_pgdir that name it. Results:
- `consistent_iff`: a consistent state is one of the invariant `Inv`, with the managed pages insertable and no reference
  to them outside kern_pgdir;
- `Consistent.step`: a legal operation keeps it;
- `page_conservation`: page_init establishes it, and no legal run fails or leaves it.
-/
import Jos.Pmap.Ops

namespace Jos

open Jos.Lib

/-! ## Counting the uses of a page -/

/-- present entries of the addresses below UTOP that name p -/
def pteUses (s : St) (p : ℕ) : ℕ :=
  ((Finset.range 977920).filter fun n => (xlat s.mem s.dir n).map pgnum = some p).card

/-- present directory entries other than the self entry that name p -/
def pdeUses (s : St) (p : ℕ) : ℕ :=
  (((Finset.range 1024).erase 957).filter fun d => tbl s.mem s.dir d = some p).card

theorem uses_eq (s : St) (p : ℕ) :
    RefPool.uses userSlots (named s.mem s.dir) p = pteUses s p + pdeUses s p := by
  have hpte : Function.Injective Slot.pte := fun _ _ h => Slot.pte.inj h
  have hpde : Function.Injective Slot.pde := fun _ _ h => Slot.pde.inj h
  have hdisj : Disjoint
      ((((Finset.range 1024).erase 957).filter fun d => tbl s.mem s.dir d = some p).image Slot.pde)
      (((Finset.range 977920).filter fun n => (xlat s.mem s.dir n).map pgnum = some p).image Slot.pte) := by
    refine Finset.disjoint_left.2 fun σ h1 h2 => ?_
    obtain ⟨_, -, rfl⟩ := Finset.mem_image.1 h1
    obtain ⟨_, -, h⟩ := Finset.mem_image.1 h2
    cases h
  have hsplit : (userSlots.filter fun σ => named s.mem s.dir σ = some p) =
      ((((Finset.range 1024).erase 957).filter fun d => tbl s.mem s.dir d = some p).image Slot.pde) ∪
        ((Finset.range 977920).filter fun n => (xlat s.mem s.dir n).map pgnum = some p).image Slot.pte := by
    rw [userSlots, Finset.filter_union, Finset.filter_image, Finset.filter_image]
    rfl
  rw [RefPool.uses, hsplit, Finset.card_union_of_disjoint hdisj, Finset.card_image_of_injective _ hpde,
    Finset.card_image_of_injective _ hpte, pteUses, pdeUses, Nat.add_comm]

/-! ## Consistent states -/

inductive PageClass where
  | free
  | held
  | inUse
deriving DecidableEq, Repr

/-- page p is of this class, where l is the free list -/
def InClass (s : St) (l : List ℕ) (p : ℕ) : PageClass → Prop
  | .free => l.count p = 1 ∧ s.ref p = 0#16 ∧ pteUses s p = 0 ∧ pdeUses s p = 0
  | .held => p ∉ l ∧ s.link p = none ∧ s.ref p = 0#16 ∧ pteUses s p = 0 ∧ pdeUses s p = 0
  | .inUse => p ∉ l ∧ s.link p = none ∧ 0 < refs s p ∧ refs s p = pteUses s p + pdeUses s p

structure Consistent (s : St) : Prop where
  npages_le : s.npages.toNat ≤ 65536
  self : s.mem s.dir 957 = selfEntry s
  dir_reserved : ¬ Managed s s.dir
  tbl_managed : ∀ d f, d < 1024 → d ≠ 957 → tbl s.mem s.dir d = some f → Managed s f
  tbl_inj : ∀ d d' f, d < 1024 → d' < 1024 → d ≠ 957 → d' ≠ 957 → tbl s.mem s.dir d = some f →
    tbl s.mem s.dir d' = some f → d = d'
  mapped : ∀ n e, n < 977920 → xlat s.mem s.dir n = some e → Managed s (pgnum e)
  classes : ∃ l, FreeList s l ∧ (∀ p ∈ l, Managed s p) ∧ ∀ p, Managed s p → ∃! c, InClass s l p c

/-- references to a page outside the entries of kern_pgdir: page_init gives the reserved pages theirs -/
def reservedRefs (s : St) (p : ℕ) : ℕ := if Managed s p then 0 else refs s p

section Bridge

variable {s : St} {l : List ℕ} {p : ℕ}

theorem refs_eq_zero : refs s p = 0 ↔ s.ref p = 0#16 := by
  rw [refs, ← BitVec.toNat_inj]; rfl

/-- a page of a class is on the list, with no uses, or off it, without a link, with pp_ref the number of its uses -/
theorem InClass.counts {c : PageClass} (h : InClass s l p c) :
    refs s p = pteUses s p + pdeUses s p ∧ (p ∈ l → refs s p = 0) ∧ (p ∉ l → s.link p = none) := by
  cases c with
  | free =>
    obtain ⟨hc, hr, h1, h2⟩ := h
    have hp : p ∈ l := List.count_pos_iff.1 (by omega)
    exact ⟨by rw [refs_eq_zero.2 hr, h1, h2], fun _ => refs_eq_zero.2 hr, fun hn => absurd hp hn⟩
  | held =>
    obtain ⟨hn, hl, hr, h1, h2⟩ := h
    exact ⟨by rw [refs_eq_zero.2 hr, h1, h2], fun hp => absurd hp hn, fun _ => hl⟩
  | inUse =>
    obtain ⟨hn, hl, -, hr⟩ := h
    exact ⟨hr, fun hp => absurd hp hn, fun _ => hl⟩

/-- the three classes exclude each other, and exact counters put a page into one of them -/
theorem existsUnique_class (hd : l.Nodup) (hr : refs s p = pteUses s p + pdeUses s p) (h0 : p ∈ l → refs s p = 0)
    (hl : p ∉ l → s.link p = none) : ∃! c, InClass s l p c := by
  by_cases hp : p ∈ l
  · have hc : l.count p = 1 := List.count_eq_one_of_mem hd hp
    refine ⟨.free, ⟨hc, refs_eq_zero.1 (h0 hp), ?_, ?_⟩, ?_⟩
    · have := h0 hp; omega
    · have := h0 hp; omega
    · intro c h
      cases c with
      | free => rfl
      | held => exact absurd hp h.1
      | inUse => exact absurd hp h.1
  · have hc : l.count p = 0 := List.count_eq_zero_of_not_mem hp
    by_cases hz : refs s p = 0
    · refine ⟨.held, ⟨hp, hl hp, refs_eq_zero.1 hz, by omega, by omega⟩, fun c h => ?_⟩
      cases c with
      | free => exact absurd h.1 (by omega)
      | held => rfl
      | inUse => exact absurd h.2.2.1 (by omega)
    · refine ⟨.inUse, ⟨hp, hl hp, by omega, hr⟩, fun c h => ?_⟩
      cases c with
      | free => exact absurd h.1 (by omega)
      | held => exact absurd (refs_eq_zero.2 h.2.2.1) hz
      | inUse => rfl

theorem Consistent.inv (h : Consistent s) : ∃ l, Inv (Managed s) (reservedRefs s) s l := by
  obtain ⟨l, hc, hm, hcl⟩ := h.classes
  have hcount : ∀ p, Managed s p →
      refs s p = pteUses s p + pdeUses s p ∧ (p ∈ l → refs s p = 0) ∧ (p ∉ l → s.link p = none) := fun p hp => by
    obtain ⟨c, hcp, -⟩ := hcl p hp
    exact hcp.counts
  have hslot : ∀ σ ∈ userSlots, ∀ p, named s.mem s.dir σ = some p → Managed s p := by
    intro σ hσ p hp
    cases σ with
    | pde d => exact h.tbl_managed d p (mem_pde.1 hσ).1 (mem_pde.1 hσ).2 hp
    | pte n =>
      obtain ⟨e, he, rfl⟩ := Option.map_eq_some_iff.1 hp
      exact h.mapped n e (mem_pte.1 hσ) he
  refine ⟨l, h.npages_le, hc, h.self, h.dir_reserved, h.tbl_managed, h.tbl_inj, ?_, fun p hp => (hcount p hp).2.2⟩
  refine ⟨Chain.nodup hc, hm, fun p hp => (hcount p (hm p hp)).2.1 hp, hslot, fun p => ?_⟩
  by_cases hp : Managed s p
  · rw [reservedRefs, if_pos hp, uses_eq, Nat.zero_add]
    exact (hcount p hp).1
  · have h0 : RefPool.uses userSlots (named s.mem s.dir) p = 0 :=
      (RefPool.uses_eq_zero_iff p).2 fun σ hσ e => hp (hslot σ hσ p e)
    rw [reservedRefs, if_neg hp, h0, Nat.add_zero]

theorem Inv.consistent {own : ℕ → Prop} {extra : ℕ → ℕ} (h : Inv own extra s l) (ho : ∀ p, own p → Managed s p)
    (hx : ∀ p, Managed s p → extra p = 0) : Consistent s where
  npages_le := h.npages_le
  self := h.self
  dir_reserved := h.dir_reserved
  tbl_managed := h.tbl_managed
  tbl_inj := h.tbl_inj
  mapped := fun n e hn he => ho _ (h.pool.slot_own _ (mem_pte.2 hn) _ (by simp [named, he]))
  classes := by
    refine ⟨l, h.chain, h.pool.free_pool, fun p hp => existsUnique_class h.pool.nodup ?_ (h.pool.free_ref p) ?_⟩
    · rw [h.pool.ref_eq p, hx p hp, uses_eq, Nat.zero_add]
    · exact h.link_none p hp

theorem consistent_iff : Consistent s ↔ ∃ l, Inv (Managed s) (reservedRefs s) s l :=
  ⟨Consistent.inv, fun ⟨_, h⟩ => h.consistent (fun _ hp => hp) fun _ hp => if_pos hp⟩

/-- only managed pages may be inserted -/
theorem owns_managed (s : St) (extra : ℕ → ℕ) : Owns s (Managed s) extra :=
  ⟨fun _ hp => hp, fun _ hp => hp.1, fun _ hp => Or.inl hp⟩

/-- the managed pages are those of the state the run began in -/
theorem Inv.consistent_of_fixed {t : St} (h : Inv (Managed s) (reservedRefs s) t l) (hx : St.Fixed s t) :
    Consistent t := by
  have hM := managed_fixed hx
  refine h.consistent (fun p hp => by rwa [hM]) fun p hp => if_pos ?_
  rwa [← hM]

/-- a legal operation does not stop at a fault and keeps page conservation -/
theorem Consistent.step (h : Consistent s) {o : Op} (hl : Legal Managed s o) :
    ∃ t, Jos.step o s = .ok t ∧ Consistent t := by
  obtain ⟨l, hi⟩ := h.inv
  obtain ⟨t, m, hrun, hx, ht⟩ := step_inv hi (owns_managed s _) (fun _ hp => hp) o hl
  exact ⟨t, hrun, ht.consistent_of_fixed hx⟩

end Bridge

/-! ## After page_init -/

/-- kern_pgdir lies in memory that boot_alloc has handed out, and holds only the self entry -/
structure OnlySelf (s : St) : Prop where
  dir_ge : kernbase + extphysmem ≤ s.kernPgdir
  dir_lt : s.kernPgdir < s.nextfree
  self : s.mem s.dir 957 = selfEntry s
  rest : ∀ d, d < 1024 → d ≠ 957 → ¬ present (s.mem s.dir d)

section Init

variable {s : St}

theorem OnlySelf.tbl_none (h : OnlySelf s) {d : ℕ} (hd : d < 1024) (hw : d ≠ 957) : tbl s.mem s.dir d = none :=
  tbl_eq_none.2 (h.rest d hd hw)

theorem OnlySelf.nextfree_ge (h : OnlySelf s) : kernbase ≤ s.nextfree := by
  have h1 := h.dir_ge
  have h2 := h.dir_lt
  simp only [kernbase, extphysmem] at *
  bv_omega

/-- the page of kern_pgdir is below the first address boot_alloc has not handed out -/
theorem OnlySelf.dir_reserved (h : OnlySelf s) : ¬ Managed s s.dir := by
  have h1 := h.dir_ge
  have h2 := h.dir_lt
  have hp : (page2pa s.dir).toNat = (s.kernPgdir - kernbase).toNat / 4096 * 4096 := by
    unfold St.dir frameOf
    rw [page2pa_toNat (pgnum_lt _), pgnum_eq]
  refine fun hm => hm.2 (Or.inl ⟨?_, ?_⟩)
  · rw [BitVec.le_def, hp]
    simp only [kernbase, extphysmem, iophysmem] at *
    bv_omega
  · rw [BitVec.lt_def, hp]
    simp only [kernbase, extphysmem] at *
    bv_omega

theorem OnlySelf.no_slot (h : OnlySelf s) {σ : Slot} (hσ : σ ∈ userSlots) : named s.mem s.dir σ = none := by
  cases σ with
  | pde d => exact h.tbl_none (mem_pde.1 hσ).1 (mem_pde.1 hσ).2
  | pte n =>
    have := mem_pte.1 hσ
    simp [named, xlat_none (h.tbl_none (d := n / 1024) (by omega) (by omega))]

theorem OnlySelf.consistent (h : OnlySelf s) (hn : s.npages.toNat ≤ 65536) {t : St} (ht : ListOnly s t)
    (hc : FreeList t (initFree s)) (hr : ∀ i, Managed s i → t.ref i = 0#16) : Consistent t := by
  have hM := managed_fixed ht.toFixed
  have hnone : ∀ σ ∈ userSlots, named t.mem t.dir σ = none := by
    rw [ht.mem, ht.toFixed.dir]; exact fun σ hσ => h.no_slot hσ
  have htbl : ∀ d, d < 1024 → d ≠ 957 → tbl t.mem t.dir d = none := fun d hd hw =>
    hnone (.pde d) (mem_pde.2 ⟨hd, hw⟩)
  have hinv : Inv (Managed t) (reservedRefs t) t (initFree s) → Consistent t := fun hi =>
    hi.consistent (fun _ hp => hp) fun _ hp => if_pos hp
  refine hinv ?_
  constructor
  · rw [ht.npages]; exact hn
  · exact hc
  · rw [ht.mem, ht.toFixed.dir, selfEntry, ht.kernPgdir]; exact h.self
  · rw [hM, ht.toFixed.dir]; exact h.dir_reserved
  · intro d f hd hw hf
    rw [htbl d hd hw] at hf
    cases hf
  · intro d d' f hd _ hw _ hf
    rw [htbl d hd hw] at hf
    cases hf
  · have h0 : ∀ p, RefPool.uses userSlots (named t.mem t.dir) p = 0 := fun p =>
      (RefPool.uses_eq_zero_iff p).2 fun σ hσ e => by rw [hnone σ hσ] at e; cases e
    refine ⟨Chain.nodup hc, fun p hp => hM ▸ mem_initFree.1 hp, ?_, fun σ hσ p hp => ?_, ?_⟩
    · intro p hp
      exact refs_eq_zero.2 (hr p (mem_initFree.1 hp))
    · rw [hnone σ hσ] at hp
      cases hp
    · intro p
      rw [h0, Nat.add_zero, reservedRefs]
      split_ifs with hp
      · exact refs_eq_zero.2 (hr p (hM ▸ hp))
      · rfl
  · exact fun p hp hpl => absurd (mem_initFree.2 (hM ▸ hp)) hpl

theorem pageInit_consistent (kend : Word) {l : List ℕ} (hn : s.npages.toNat ≤ 65536)
    (hf : s.pageFreeList = none) (h : OnlySelf s) (hl : initFree s = l) :
    ∃ t, (pageInit kend).run s = .ok ((), t) ∧ ListOnly s t ∧ FreeList t l ∧ (∀ i, Managed s i → t.ref i = 0#16) ∧
      Consistent t := by
  obtain ⟨t, ht, hlo, hc, hr, -, -⟩ := pageInit_spec kend h.nextfree_ge hf
  exact ⟨t, ht, hlo, hl ▸ hc, hr, h.consistent hn hlo hc hr⟩

end Init

/-! ## A small machine -/

/-- 2MB of memory, kern_pgdir in page 280, `pages` in page 281 -/
def smallSt : St where
  npages := 512
  npagesBasemem := 160
  kernPgdir := 0xF0118000
  pagesVa := 0xF0119000
  pages := fun _ => ⟨none, 0⟩
  pageFreeList := none
  nextfree := 0xF011A000
  cr3 := 0
  mem := fun f i => if f = 280 ∧ i = 957 then 0x118005 else 0
  log := []

theorem smallSt_onlySelf : OnlySelf smallSt where
  dir_ge := by decide
  dir_lt := by decide
  self := by decide
  rest := fun d _ hw => by
    have h0 : smallSt.mem smallSt.dir d = 0#32 := if_neg fun h => hw h.2
    rw [h0]
    exact not_present_zero

theorem smallSt_initFree : ∃ m, initFree smallSt = 511 :: 510 :: m := by
  have h : (List.range smallSt.npages.toNat).reverse = 511 :: 510 :: (List.range 510).reverse := by
    rw [show smallSt.npages.toNat = 510 + 1 + 1 from rfl, List.range_succ, List.range_succ, List.reverse_append,
      List.reverse_append, List.reverse_singleton, List.reverse_singleton, List.singleton_append, List.singleton_append]
  refine ⟨(List.range 510).reverse.filter fun i => ¬ Reserved smallSt i, ?_⟩
  rw [initFree, h, List.filter_cons_of_pos (by decide), List.filter_cons_of_pos (by decide)]

/-- the first page of the list is allocated and may be mapped -/
theorem smallSt_alloc : ∃ t m, (pageInit 0xF0117123#32).run smallSt = .ok ((), t) ∧ ListOnly smallSt t ∧
    FreeList t (511 :: 510 :: m) ∧ step (.alloc 0#32) t = .ok (t.pop 511) ∧ Consistent (t.pop 511) ∧
    Legal Managed (t.pop 511) (.insert 511 0x1000#32 pteW) := by
  obtain ⟨m, hm⟩ := smallSt_initFree
  obtain ⟨t, ht, hlo, hc, hr, hcons⟩ := pageInit_consistent 0xF0117123#32 (s := smallSt) (by decide) rfl
    smallSt_onlySelf hm
  have hpop : step (.alloc 0#32) t = .ok (t.pop 511) :=
    step_ok (by rw [Op.call, Prog.run_bind (run_pageAlloc_some hc.head (by decide))]; rfl)
  obtain ⟨u, hu, hcu⟩ := hcons.step (o := .alloc 0#32) trivial
  obtain rfl := Except.ok.inj (hpop.symm.trans hu)
  refine ⟨t, m, ht, hlo, hc, hpop, hcu, ?_, ?_, ?_, by decide, by decide⟩
  · rw [managed_fixed (hlo.toFixed.trans (St.fixed_pop ..))]
    decide
  · rw [onFreeList_iff hc.pop]
    exact (List.nodup_cons.1 (Chain.nodup hc)).1
  · rw [refs, St.pop_ref, hr 511 (by decide)]
    decide

/-! ## Whole runs -/

/-- **Page conservation.** After page_init, with a directory that holds only the self entry, every managed page is in
exactly one class; and a run of legal operations from a consistent state never stops at a fault and ends in one. -/
theorem page_conservation :
    (∀ (s : St) (kend : Word), s.npages.toNat ≤ 65536 → s.pageFreeList = none → OnlySelf s →
      ∃ t, (pageInit kend).run s = .ok ((), t) ∧ Consistent t) ∧
    ∀ (s : St) (os : List Op), Consistent s → LegalRun step (Legal Managed) s os →
      ∃ t, runAll step os s = .ok t ∧ Consistent t := by
  constructor
  · intro s kend hn hf h
    obtain ⟨t, ht, -, -, -, hc⟩ := pageInit_consistent kend hn hf h rfl
    exact ⟨t, ht, hc⟩
  · exact fun s os => runAll_inv (fun _ _ h hl => h.step hl) s os

/-- page_init, then the first page of the list is allocated, mapped and unmapped -/
theorem page_conservation_small : ∃ t u, (pageInit 0xF0117123#32).run smallSt = .ok ((), t) ∧ Consistent t ∧
    runAll step [.alloc 0#32, .insert 511 0x1000#32 pteW, .remove 0x1000#32] t = .ok u ∧ Consistent u := by
  obtain ⟨t, m, ht, -, -, hpop, -, hlegal⟩ := smallSt_alloc
  obtain ⟨t', ht', hcons⟩ := page_conservation.1 smallSt 0xF0117123#32 (by decide) rfl smallSt_onlySelf
  obtain rfl : t = t' := (Prod.ext_iff.1 (Except.ok.inj (ht.symm.trans ht'))).2
  obtain ⟨u, hu, hcu⟩ := page_conservation.2 t [.alloc 0#32, .insert 511 0x1000#32 pteW, .remove 0x1000#32] hcons
    ⟨trivial, fun s1 h1 => by
      obtain rfl := Except.ok.inj (hpop.symm.trans h1)
      exact ⟨hlegal, fun _ _ => ⟨(by decide : 0x1000#32 < utop), fun _ _ => trivial⟩⟩⟩
  exact ⟨t, u, ht, hcons, hu, hcu⟩

end Jos
