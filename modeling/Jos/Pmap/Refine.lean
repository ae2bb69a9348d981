/-
The page tables refine a map from virtual pages to (physical address, permission bits).

`hwWalk s va` is what the hardware walk finds at va; `run_checkVa2pa` says that check_va2pa returns its address. `userMap`
is the map of all pages outside the window at UVPT, in which kern_pgdir itself serves as a page table. Results:
- `insert_spec`, `remove_spec`, `walk_spec`: what each call does to the walk at every address;
- `step_refines`, `run_refines`: every legal operation and every legal run act on `userMap` as on a finite map;
- `new_table_in_window`: a page table made by page_insert or pgdir_walk appears in the UVPT window, so these calls do
  change the translation of one other page;
- `translation_refines`: page_insert, page_remove and pgdir_walk from a consistent state.
-/
import Jos.Pmap.Consistent

namespace Jos

open Jos.Lib

/-- physical address and permission bits of an entry -/
def translation (e : Word) : Word × Word := (pteAddr e, e &&& 0xFFF#32)

/-- what the hardware walk of kern_pgdir finds at va -/
def hwWalk (s : St) (va : Word) : Option (Word × Word) := (xlat s.mem s.dir (pgnum va)).map translation

/-- the page of the UVPT window at which the page table of va is seen -/
def windowPage (va : Word) : ℕ := 957 * 1024 + pdx va

section Walk

variable {s : St} {l : List ℕ} {va perm : Word} {pp : ℕ}

theorem translation_entry (hp : perm.toNat < 4096) : translation (entry (page2pa pp) perm) = (page2pa pp, perm ||| pteP) := by
  rw [translation, pteAddr_entry (page2pa_aligned pp) hp, low_entry (page2pa_aligned pp) hp]

/-- check_va2pa returns the address the hardware walk finds, or ~0 -/
theorem run_checkVa2pa (h : Tables s l) (hw : pdx va ≠ 957) :
    (checkVa2pa s.kernPgdir va).run s = .ok (((hwWalk s va).map Prod.fst).getD (~~~0#32), s) := by
  cases hf : tbl s.mem s.dir (pdx va) with
  | none =>
    have hn : ¬ present (s.mem s.dir (pdx va)) := tbl_eq_none.1 hf
    have hx : hwWalk s va = none := by rw [hwWalk, xlat_none (by rwa [← pdx_pgnum])]; rfl
    simp [checkVa2pa, ← St.dir.eq_def, hn, hx]
  | some f =>
    obtain ⟨hp, hpf⟩ := tbl_eq_some.1 hf
    have hlt := h.tbl_lt _ f (pdx_lt va) hw hf
    have hk := run_kaddr (s := s) (pteAddr (s.mem s.dir (pdx va))) (by rwa [pgnum_pteAddr, hpf])
    have hx : hwWalk s va = if present (s.mem f (ptx va)) then some (translation (s.mem f (ptx va))) else none := by
      rw [hwWalk, xlat_of_tbl (by rw [← pdx_pgnum]; exact hf), ptx_pgnum]
      split_ifs <;> rfl
    by_cases hpr : present (s.mem f (ptx va))
    · simp [checkVa2pa, ← St.dir.eq_def, hp, hk, frameOf_add, pgnum_pteAddr, hpf, hpr, hx, translation, -bind_pure_comp]
    · simp [checkVa2pa, ← St.dir.eq_def, hp, hk, frameOf_add, pgnum_pteAddr, hpf, hpr, hx, -bind_pure_comp]

/-- pgdir_walk changes the translation of no page, but a page table that it makes appears in the UVPT window -/
theorem Walked.xlat_all {t : St} {m : List ℕ} {f : ℕ} (h : Walked s l va t m f) (ht : Tables s l) (hw : pdx va ≠ 957)
    {n : ℕ} (hn : n < 1048576) : Jos.xlat t.mem t.dir n =
      if Jos.tbl s.mem s.dir (pdx va) = none ∧ n = windowPage va then some (tableEntry f)
      else Jos.xlat s.mem s.dir n := by
  have hlt := pdx_lt va
  by_cases hne : n / 1024 = 957
  · have hwin : n % 1024 = pdx va ↔ n = windowPage va := by unfold windowPage; omega
    cases h with
    | found hf => simp [hf]
    | made ha hl =>
      subst hl
      rw [(s.fixed_linkTable ..).dir, St.linkTable_mem, xlat_link_window ht hw hne]
      simp [ha, hwin]
  · have hwin : n ≠ windowPage va := by unfold windowPage; omega
    rw [h.xlat ht hn hne, if_neg fun hc => hwin hc.2]

end Walk

/-! ## The calls -/

section Calls

variable {s : St} {va perm : Word} {pp : ℕ}

theorem pdx_ne_window (hva : va < utop) : pdx va ≠ 957 := by
  have := pgnum_lt_utop hva
  rw [pdx_pgnum]; omega

/-- `-E_NO_MEM` and success are told apart by the directory entry and the free list alone -/
theorem noMem_iff {l : List ℕ} (h : FreeList s l) : l = [] ↔ s.pageFreeList = none := by
  cases l with
  | nil => simpa using chain_nil.1 h
  | cons p m => simp [h.head]

/-- page_insert: -E_NO_MEM without a page table and a free page, and then nothing has happened; otherwise va is mapped -/
theorem insert_spec (h : Consistent s) (hva : va < utop) (hm : Managed s pp) (hf : ¬ OnFreeList s pp)
    (hr : refs s pp < 65535) (hp : perm.toNat < 4096) :
    (tbl s.mem s.dir (pdx va) = none ∧ s.pageFreeList = none ∧
      (pageInsert s.kernPgdir pp va perm).run s = .ok (-eNoMem, s)) ∨
    ¬ (tbl s.mem s.dir (pdx va) = none ∧ s.pageFreeList = none) ∧
      ∃ t f, (pageInsert s.kernPgdir pp va perm).run s = .ok (0, t) ∧ St.Fixed s t ∧ Consistent t ∧
        ∀ n, n < 1048576 → xlat t.mem t.dir n =
          if n = pgnum va then some (entry (page2pa pp) perm)
          else if tbl s.mem s.dir (pdx va) = none ∧ n = windowPage va then some (tableEntry f)
          else xlat s.mem s.dir n := by
  obtain ⟨l, hi⟩ := h.inv
  rw [onFreeList_iff hi.chain] at hf
  have hw := pdx_ne_window hva
  have hmem := noMem_iff hi.chain
  rcases insert_cases hi (owns_managed s _) (pgnum_lt_utop hva) hm hf (Or.inl hr) hp with
    ⟨hn, hl, hrun⟩ | ⟨t, m, f, m', hwk, hit, hrun, hi'⟩
  · exact Or.inl ⟨hn, hmem.1 hl, hrun⟩
  · have htbl : tbl t.mem t.dir (pgnum va / 1024) = some f := by rw [← pdx_pgnum]; exact hwk.tbl hi.tables
    have hx := hwk.fixed.trans (t.fixed_insert f (ptx va) pp va perm)
    refine Or.inr ⟨?_, _, f, hrun, hx, hi'.consistent_of_fixed hx, ?_⟩
    · intro hc
      cases hwk with
      | found hf => rw [hf] at hc; cases hc.1
      | made _ hl => rw [← hmem, hl] at hc; cases hc.2
    · intro n hn
      rw [St.insert_mem, (St.fixed_insert ..).dir, ptx_pgnum,
        xlat_store hit.tables (pgnum_lt va) (by rwa [← pdx_pgnum]) htbl _ hn, if_pos (present_entry _ _),
        hwk.xlat_all hi.tables hw hn]

theorem remove_spec (h : Consistent s) (hva : va < utop) :
    ∃ t, (pageRemove s.kernPgdir va).run s = .ok ((), t) ∧ St.Fixed s t ∧ Consistent t ∧
      ∀ n, n < 1048576 → xlat t.mem t.dir n = if n = pgnum va then none else xlat s.mem s.dir n := by
  obtain ⟨l, hi⟩ := h.inv
  rcases remove_cases hi (owns_managed s _) (pgnum_lt_utop hva) with ⟨hn, hrun⟩ | ⟨f, q, m, hf, hp, hrun, hi'⟩
  · refine ⟨s, hrun, St.Fixed.refl s, h, fun n _ => ?_⟩
    split_ifs with he
    · rw [he, hn]
    · rfl
  · refine ⟨_, hrun, s.fixed_unmap .., hi'.consistent_of_fixed (s.fixed_unmap ..), fun n hn => ?_⟩
    rw [St.unmap_mem, (s.fixed_unmap ..).dir, ptx_pgnum,
      xlat_store hi.tables (pgnum_lt va) (by rw [← pdx_pgnum]; exact pdx_ne_window hva) (by rw [← pdx_pgnum]; exact hf)
        _ hn, if_neg not_present_zero]

theorem walk_spec (h : Consistent s) (hva : va < utop) (create : Bool) :
    ∃ r t f, (pgdirWalk s.kernPgdir va create).run s = .ok (r, t) ∧ St.Fixed s t ∧ Consistent t ∧
      ∀ n, n < 1048576 → xlat t.mem t.dir n =
        if create ∧ tbl s.mem s.dir (pdx va) = none ∧ s.pageFreeList ≠ none ∧ n = windowPage va then some (tableEntry f)
        else xlat s.mem s.dir n := by
  obtain ⟨l, hi⟩ := h.inv
  have hw := pdx_ne_window hva
  rcases hi.tables.walk_cases hw create with ⟨-, hc, hrun⟩ | ⟨t, m, f, hwk, hc, hrun⟩
  · refine ⟨_, s, 0, hrun, St.Fixed.refl s, h, fun n _ => (if_neg fun hn => ?_).symm⟩
    rcases hc with hc | hc
    · rw [hc] at hn; cases hn.1
    · exact hn.2.2.1 ((noMem_iff hi.chain).1 hc)
  · refine ⟨_, t, f, hrun, hwk.fixed, (hwk.inv hi (owns_managed s _) hw).consistent_of_fixed hwk.fixed, fun n hn => ?_⟩
    rw [hwk.xlat_all hi.tables hw hn]
    have htbl := hwk.tbl hi.tables
    cases hwk with
    | found hf => simp [hf]
    | made ha hl =>
      have hcr : create = true := by
        cases create with
        | true => rfl
        | false => rw [hc rfl, ha] at htbl; cases htbl
      have hfree : s.pageFreeList ≠ none := fun e => by rw [← noMem_iff hi.chain, hl] at e; cases e
      simp [ha, hcr, hfree]

/-- page_alloc clears a page that no walk goes through -/
theorem xlat_fill {l : List ℕ} {p : ℕ} (h : Tables s (p :: l)) {n : ℕ} (hn : n < 1048576) (k : ℕ) (v : Word) :
    xlat (s.mem.fill p k v) s.dir n = xlat s.mem s.dir n := by
  refine h.xlat_off_free (fun f i hf => ?_) hn
  have hne : f ≠ p := fun e => hf (e ▸ List.mem_cons_self)
  simp [Mem.fill, hne]

theorem alloc_spec (h : Consistent s) (fl : Word) :
    ∃ r t, (pageAlloc fl).run s = .ok (r, t) ∧ St.Fixed s t ∧ Consistent t ∧
      ∀ n, n < 1048576 → xlat t.mem t.dir n = xlat s.mem s.dir n := by
  obtain ⟨l, hi⟩ := h.inv
  rcases alloc_cases hi fl with ⟨-, hrun⟩ | ⟨p, m, t, rfl, hrun, hx, hit, ⟨hm, -⟩ | ⟨hm, -⟩⟩
  · exact ⟨_, s, hrun, St.Fixed.refl s, h, fun _ _ => rfl⟩
  · exact ⟨_, t, hrun, hx, hit.consistent_of_fixed hx, fun n _ => by rw [hm, hx.dir]⟩
  · exact ⟨_, t, hrun, hx, hit.consistent_of_fixed hx, fun n hn => by rw [hm, hx.dir, xlat_fill hi.tables hn]⟩

end Calls

/-! ## The abstract map -/

/-- virtual page to physical address and permission bits -/
abbrev PageMap := ℕ → Option (Word × Word)

/-- what kern_pgdir says about the pages outside the UVPT window -/
def userMap (s : St) : PageMap := fun n =>
  if n < 1048576 ∧ n / 1024 ≠ 957 then (xlat s.mem s.dir n).map translation else none

/-- what each call may do to the map: page_insert may also fail -/
inductive MapStep (m : PageMap) : Op → PageMap → Prop where
  | alloc (fl : Word) : MapStep m (.alloc fl) m
  | free (pp : ℕ) : MapStep m (.free pp) m
  | insert (pp : ℕ) (va perm : Word) :
    MapStep m (.insert pp va perm) (Function.update m (pgnum va) (some (page2pa pp, perm ||| pteP)))
  | noMem (pp : ℕ) (va perm : Word) : MapStep m (.insert pp va perm) m
  | remove (va : Word) : MapStep m (.remove va) (Function.update m (pgnum va) none)
  | walk (va : Word) (create : Bool) : MapStep m (.walk va create) m

inductive MapRun : PageMap → List Op → PageMap → Prop where
  | nil (m : PageMap) : MapRun m [] m
  | cons {m m' m'' : PageMap} {o : Op} {os : List Op} : MapStep m o m' → MapRun m' os m'' → MapRun m (o :: os) m''

section Simulation

variable {s t : St}

theorem userMap_congr (h : ∀ n, n < 1048576 → n / 1024 ≠ 957 → xlat t.mem t.dir n = xlat s.mem s.dir n) :
    userMap t = userMap s := by
  funext n
  unfold userMap
  split_ifs with hn
  · rw [h n hn.1 hn.2]
  · rfl

theorem userMap_update {va : Word} (hva : va < utop) {e : Option Word} (hv : xlat t.mem t.dir (pgnum va) = e)
    (h : ∀ n, n < 1048576 → n / 1024 ≠ 957 → n ≠ pgnum va → xlat t.mem t.dir n = xlat s.mem s.dir n) :
    userMap t = Function.update (userMap s) (pgnum va) (e.map translation) := by
  funext n
  by_cases he : n = pgnum va
  · have hlt := pgnum_lt_utop hva
    subst he
    rw [Function.update_self, userMap, if_pos ⟨by omega, by omega⟩, hv]
  · rw [Function.update_of_ne he]
    unfold userMap
    split_ifs with hn
    · rw [h n hn.1 hn.2 he]
    · rfl

theorem ne_windowPage {n : ℕ} (hw : n / 1024 ≠ 957) (va : Word) : n ≠ windowPage va := by
  have := pdx_lt va
  unfold windowPage
  omega

/-- a legal call acts on the map -/
theorem step_refines (h : Consistent s) {o : Op} (hl : Legal Managed s o) :
    ∃ t, step o s = .ok t ∧ Consistent t ∧ MapStep (userMap s) o (userMap t) := by
  cases o with
  | alloc fl =>
    obtain ⟨r, t, hrun, -, hc, hx⟩ := alloc_spec h fl
    refine ⟨t, step_ok (by rw [Op.call, Prog.run_bind hrun]; rfl), hc, ?_⟩
    rw [userMap_congr fun n hn _ => hx n hn]
    exact .alloc fl
  | free pp =>
    obtain ⟨t, hrun, hc⟩ := h.step hl
    obtain ⟨l, hi⟩ := h.inv
    obtain ⟨hm, hf, hr⟩ := hl
    rw [onFreeList_iff hi.chain] at hf
    obtain rfl := Except.ok.inj ((step_ok (o := .free pp) (run_pageFree hr (hi.link_none pp hm hf))).symm.trans hrun)
    exact ⟨_, hrun, hc, .free pp⟩
  | insert pp va perm =>
    obtain ⟨hm, hf, hr, hva, hp⟩ := hl
    rcases insert_spec h hva hm hf hr hp with ⟨-, -, hrun⟩ | ⟨-, t, f, hrun, -, hc, hx⟩
    · exact ⟨s, step_ok (by rw [Op.call, Prog.run_bind (run_get s), Prog.run_bind hrun]; rfl), h, .noMem pp va perm⟩
    · refine ⟨t, step_ok (by rw [Op.call, Prog.run_bind (run_get s), Prog.run_bind hrun]; rfl), hc, ?_⟩
      rw [userMap_update (s := s) (t := t) hva (e := some (entry (page2pa pp) perm)) (by rw [hx _ (pgnum_lt va), if_pos rfl])
        fun n hn hw he => by rw [hx n hn, if_neg he, if_neg fun hc => ne_windowPage hw va hc.2]]
      rw [Option.map_some, translation_entry hp]
      exact .insert pp va perm
  | remove va =>
    obtain ⟨t, hrun, -, hc, hx⟩ := remove_spec h hl
    refine ⟨t, step_ok (by rw [Op.call, Prog.run_bind (run_get s), hrun]), hc, ?_⟩
    rw [userMap_update (s := s) (t := t) hl (e := none) (by rw [hx _ (pgnum_lt va), if_pos rfl])
      fun n hn _ he => by rw [hx n hn, if_neg he]]
    exact .remove va
  | walk va create =>
    obtain ⟨r, t, f, hrun, -, hc, hx⟩ := walk_spec h hl create
    refine ⟨t, step_ok (by rw [Op.call, Prog.run_bind (run_get s), Prog.run_bind hrun]; rfl), hc, ?_⟩
    rw [userMap_congr fun n hn hw => by rw [hx n hn, if_neg fun hc => ne_windowPage hw va hc.2.2.2]]
    exact .walk va create

/-- **A run of the page tables is a run of the map.** -/
theorem run_refines (os : List Op) (h : Consistent s) (hl : LegalRun step (Legal Managed) s os) :
    ∃ t, runAll step os s = .ok t ∧ Consistent t ∧ MapRun (userMap s) os (userMap t) := by
  induction os generalizing s with
  | nil => exact ⟨s, rfl, h, .nil _⟩
  | cons o os ih =>
    obtain ⟨s1, h1, hc, hm⟩ := step_refines h hl.1
    obtain ⟨t, ht, hct, hr⟩ := ih hc (hl.2 s1 h1)
    exact ⟨t, by rw [runAll_cons h1, ht], hct, .cons hm hr⟩

end Simulation

/-! ## Translation -/

/-- the call at va makes a page table, which appears at va' in the UVPT window -/
def NewTableAt (s : St) (va va' : Word) : Prop := tbl s.mem s.dir (pdx va) = none ∧ pgnum va' = windowPage va

/-- **The page tables are a map.** page_insert, page_remove and pgdir_walk from a consistent state change the walk at
their own page only, except that a page table they make appears in the UVPT window. -/
theorem translation_refines (s : St) (h : Consistent s) (va : Word) (hva : va < utop) :
    (∀ pp perm, Managed s pp → ¬ OnFreeList s pp → refs s pp < 65535 → perm.toNat < 4096 →
      ∃ r t, (pageInsert s.kernPgdir pp va perm).run s = .ok (r, t) ∧ (r = 0 ∨ r = -eNoMem) ∧
        (r = 0 → (checkVa2pa t.kernPgdir va).run t = .ok (page2pa pp, t) ∧
          hwWalk t va = some (page2pa pp, perm ||| pteP) ∧
          ∀ va', pgnum va' ≠ pgnum va → ¬ NewTableAt s va va' → hwWalk t va' = hwWalk s va') ∧
        (r = -eNoMem ↔ tbl s.mem s.dir (pdx va) = none ∧ s.pageFreeList = none) ∧
        (r = -eNoMem → t = s)) ∧
    (∃ t, (pageRemove s.kernPgdir va).run s = .ok ((), t) ∧ hwWalk t va = none ∧
      ∀ va', pgnum va' ≠ pgnum va → hwWalk t va' = hwWalk s va') ∧
    ∀ create, ∃ r t, (pgdirWalk s.kernPgdir va create).run s = .ok (r, t) ∧
      ∀ va', ¬ (create ∧ NewTableAt s va va') → hwWalk t va' = hwWalk s va' := by
  refine ⟨?_, ?_, ?_⟩
  · intro pp perm hm hf hr hp
    rcases insert_spec h hva hm hf hr hp with ⟨hn, hl, hrun⟩ | ⟨hne, t, f, hrun, hfix, hc, hx⟩
    · exact ⟨_, s, hrun, Or.inr rfl, fun h0 => absurd h0 (by decide), ⟨fun _ => ⟨hn, hl⟩, fun _ => rfl⟩, fun _ => rfl⟩
    · have hat : hwWalk t va = some (page2pa pp, perm ||| pteP) := by
        rw [hwWalk, hx _ (pgnum_lt va), if_pos rfl, Option.map_some, translation_entry hp]
      obtain ⟨l, hi⟩ := hc.inv
      refine ⟨0, t, hrun, Or.inl rfl, fun _ => ⟨?_, hat, ?_⟩, ⟨fun h0 => absurd h0 (by decide),
        fun h0 => absurd h0 hne⟩, fun h0 => absurd h0 (by decide)⟩
      · rw [run_checkVa2pa hi.tables (pdx_ne_window hva), hat]
        rfl
      · intro va' hne' hw
        rw [hwWalk, hx _ (pgnum_lt va'), if_neg hne', if_neg (show ¬ (_ ∧ _) from hw)]
        rfl
  · obtain ⟨t, hrun, -, -, hx⟩ := remove_spec h hva
    refine ⟨t, hrun, ?_, ?_⟩
    · rw [hwWalk, hx _ (pgnum_lt va), if_pos rfl]
      rfl
    · intro va' hne
      rw [hwWalk, hx _ (pgnum_lt va'), if_neg hne]
      rfl
  · intro create
    obtain ⟨r, t, f, hrun, -, -, hx⟩ := walk_spec h hva create
    refine ⟨r, t, hrun, fun va' hw => ?_⟩
    rw [hwWalk, hx _ (pgnum_lt va'), if_neg fun hc => hw ⟨hc.1, hc.2.1, hc.2.2.2⟩]
    rfl

/-- page_insert makes the first page table of kern_pgdir: the walk at UVPT, where nothing was mapped, now finds it -/
theorem new_table_in_window : ∃ s t u, (pageInit 0xF0117123#32).run smallSt = .ok ((), s) ∧
    step (.alloc 0#32) s = .ok t ∧ Consistent t ∧ Managed t 511 ∧ ¬ OnFreeList t 511 ∧ refs t 511 < 65535 ∧
    (pageInsert t.kernPgdir 511 0x1000#32 pteW).run t = .ok (0, u) ∧ pgnum 0xEF400000#32 ≠ pgnum 0x1000#32 ∧
    hwWalk t 0xEF400000#32 = none ∧ hwWalk u 0xEF400000#32 ≠ none := by
  obtain ⟨s, m, hrun, hlo, hc, hpop, hcons, hm, hf, hr, -, -⟩ := smallSt_alloc
  have hdir : s.dir = smallSt.dir := hlo.toFixed.dir
  have htbl : tbl (s.pop 511).mem (s.pop 511).dir (pdx 0x1000#32) = none := by
    rw [(s.fixed_pop 511).dir, St.pop_mem, hdir, hlo.mem]
    decide
  have hlow : 0x1000#32 < utop := by decide
  have hperm : pteW.toNat < 4096 := by decide
  rcases insert_spec hcons hlow hm hf hr hperm with
    ⟨-, hl, -⟩ | ⟨-, u, f, hins, -, -, hx⟩
  · rw [hc.pop.head] at hl
    cases hl
  · refine ⟨s, _, u, hrun, hpop, hcons, hm, hf, hr, hins, by decide, ?_, ?_⟩
    · rw [hwWalk, (s.fixed_pop 511).dir, St.pop_mem, hdir, hlo.mem]
      decide
    · rw [hwWalk, hx _ (pgnum_lt _), if_neg (by decide), if_pos ⟨htbl, by decide⟩]
      simp

/-- the same call, at addresses below UTOP -/
theorem translation_refines_small : ∃ s t u, (pageInit 0xF0117123#32).run smallSt = .ok ((), s) ∧
    step (.alloc 0#32) s = .ok t ∧ (pageInsert t.kernPgdir 511 0x1000#32 pteW).run t = .ok (0, u) ∧
    hwWalk u 0x1000#32 = some (page2pa 511, pteW ||| pteP) ∧ hwWalk u 0x2000#32 = hwWalk t 0x2000#32 := by
  obtain ⟨s, m, hrun, -, hc, hpop, hcons, hm, hf, hr, -, -⟩ := smallSt_alloc
  obtain ⟨r, u, hins, hcase, hok, hmem, -⟩ := (translation_refines (s.pop 511) hcons 0x1000#32 (by decide)).1 511 pteW hm
    hf hr (by decide)
  rcases hcase with rfl | rfl
  · obtain ⟨-, hat, hother⟩ := hok rfl
    exact ⟨s, _, u, hrun, hpop, hins, hat, hother _ (by decide) fun h => absurd h.2 (by decide)⟩
  · have hl := (hmem.1 rfl).2
    rw [hc.pop.head] at hl
    cases hl

end Jos
