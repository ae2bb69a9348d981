/-
page_lookup against the page-table walk.

page_lookup returns pa2page(*pte) for any page table entry it finds, without testing PTE_P; check_va2pa and page_remove
test it. Results:
- `lookup_none_iff`: page_lookup returns NULL exactly when the page table of va is absent;
- `lookupAgrees_iff`: it agrees with check_va2pa exactly when the page table is absent or va is mapped;
- `lookup_agrees`: this in every state that a legal run reaches, and what page_lookup returns after page_remove;
- `lookup_removed_page`: after page_insert and page_remove at 0x1000, page_lookup returns page 0.
-/
import Jos.Pmap.Refine

namespace Jos

open Jos.Lib

/-- page_lookup returns NULL exactly when check_va2pa returns ~0, and otherwise the page at the address check_va2pa
returns and the address of its entry -/
def LookupAgrees (s : St) (pgdir va : Word) : Prop :=
  ∃ pp store w, (pageLookup pgdir va).run s = .ok ((pp, store), s) ∧ (checkVa2pa pgdir va).run s = .ok (w, s) ∧
    (pp = none ↔ w = ~~~0#32) ∧
    ∀ p, pp = some p → page2pa p = w ∧
      ∃ f, tbl s.mem (frameOf pgdir) (pdx va) = some f ∧ store = some ⟨f, ptx va⟩

/-- the page table of va is absent, or va is mapped -/
def NoEmptyEntry (s : St) (pgdir va : Word) : Prop :=
  tbl s.mem (frameOf pgdir) (pdx va) = none ∨ xlat s.mem (frameOf pgdir) (pgnum va) ≠ none

section Lookup

variable {s : St} {pgdir va : Word} {f : ℕ}

theorem run_lookup_absent (h : tbl s.mem (frameOf pgdir) (pdx va) = none) :
    (pageLookup pgdir va).run s = .ok ((none, none), s) := by
  simp [pageLookup, run_walk_absent false (tbl_eq_none.1 h) (Or.inl rfl)]

/-- whatever the entry holds, page_lookup takes it for the address of a page -/
theorem run_lookup_found (h : Found s pgdir va f) (hq : pgnum (s.mem f (ptx va)) < s.npages.toNat) :
    (pageLookup pgdir va).run s = .ok ((some (pgnum (s.mem f (ptx va))), some ⟨f, ptx va⟩), s) := by
  simp [pageLookup, h.walk false, run_pa2page hq]

theorem lookup_none_iff (hlt : ∀ f, tbl s.mem (frameOf pgdir) (pdx va) = some f → f < s.npages.toNat) :
    (∃ store, (pageLookup pgdir va).run s = .ok ((none, store), s)) ↔
      tbl s.mem (frameOf pgdir) (pdx va) = none := by
  refine ⟨fun ⟨store, h⟩ => ?_, fun h => ⟨none, run_lookup_absent h⟩⟩
  by_contra hne
  obtain ⟨f, hf⟩ := Option.ne_none_iff_exists'.1 hne
  have hfound : Found s pgdir va f := ⟨hf, hlt f hf⟩
  rw [pageLookup, Prog.run_bind (hfound.walk false)] at h
  obtain ⟨w, s1, -, h⟩ := Prog.bind_ok.1 h
  obtain ⟨p, s2, -, h⟩ := Prog.bind_ok.1 h
  -- the result is the page pa2page returns
  cases h

theorem run_check_absent (h : tbl s.mem (frameOf pgdir) (pdx va) = none) :
    (checkVa2pa pgdir va).run s = .ok (~~~0#32, s) := by
  simp [checkVa2pa, tbl_eq_none.1 h, -bind_pure_comp]

theorem run_check_found (h : Found s pgdir va f) : (checkVa2pa pgdir va).run s =
    .ok (if present (s.mem f (ptx va)) then pteAddr (s.mem f (ptx va)) else ~~~0#32, s) := by
  obtain ⟨hp, hpf⟩ := tbl_eq_some.1 h.1
  have hk := run_kaddr (s := s) (pteAddr (s.mem (frameOf pgdir) (pdx va))) (by rw [pgnum_pteAddr, hpf]; exact h.2)
  by_cases hpr : present (s.mem f (ptx va))
  · simp [checkVa2pa, hp, hk, frameOf_add, pgnum_pteAddr, hpf, hpr, -bind_pure_comp]
  · simp [checkVa2pa, hp, hk, frameOf_add, pgnum_pteAddr, hpf, hpr, -bind_pure_comp]

theorem pteAddr_ne (e : Word) : pteAddr e ≠ ~~~0#32 := fun h => by
  have h1 := congrArg BitVec.toNat h
  have h2 : (~~~0#32 : Word).toNat = 4294967295 := by decide
  rw [pteAddr_toNat, h2] at h1
  omega

/-- page_lookup and check_va2pa agree at va, unless the page table of va exists and va is not mapped -/
theorem lookupAgrees_iff (hlt : ∀ f, tbl s.mem (frameOf pgdir) (pdx va) = some f → f < s.npages.toNat)
    (hmap : ∀ e, xlat s.mem (frameOf pgdir) (pgnum va) = some e → pgnum e < s.npages.toNat) :
    LookupAgrees s pgdir va ↔ NoEmptyEntry s pgdir va := by
  cases hf : tbl s.mem (frameOf pgdir) (pdx va) with
  | none =>
    refine ⟨fun _ => Or.inl hf, fun _ => ⟨none, none, ~~~0#32, run_lookup_absent hf, run_check_absent hf, by simp, ?_⟩⟩
    intro p hp
    cases hp
  | some f =>
    have hfound : Found s pgdir va f := ⟨hf, hlt f hf⟩
    have hx : xlat s.mem (frameOf pgdir) (pgnum va) =
        if present (s.mem f (ptx va)) then some (s.mem f (ptx va)) else none := by
      rw [xlat_of_tbl (by rw [← pdx_pgnum]; exact hf), ptx_pgnum]
    have hcheck := run_check_found hfound
    by_cases hp : present (s.mem f (ptx va))
    · rw [if_pos hp] at hx hcheck
      have hlook := run_lookup_found hfound (hmap _ hx)
      refine ⟨fun _ => Or.inr (by rw [hx]; exact Option.some_ne_none _), fun _ => ⟨_, _, _, hlook, hcheck, ?_, ?_⟩⟩
      · exact ⟨fun h => absurd h (Option.some_ne_none _), fun h => absurd h (pteAddr_ne _)⟩
      · intro p hpp
        obtain rfl := Option.some.inj hpp
        exact ⟨page2pa_pgnum _, f, hf, rfl⟩
    · rw [if_neg hp] at hx hcheck
      have hno : ¬ NoEmptyEntry s pgdir va := by
        rintro (h | h)
        · rw [hf] at h
          cases h
        · exact h hx
      refine ⟨?_, fun h => absurd h hno⟩
      -- check_va2pa returns ~0, but page_lookup never returns NULL here
      rintro ⟨pp, store, w, hl, hc, hiff, -⟩
      rw [hcheck] at hc
      obtain rfl := (Prod.ext_iff.1 (Except.ok.inj hc)).1
      obtain rfl := hiff.2 rfl
      have hnone := (lookup_none_iff hlt).1 ⟨store, hl⟩
      rw [hf] at hnone
      cases hnone

end Lookup

/-! ## Reached states -/

section Reached

variable {s : St} {va : Word}

/-- in a consistent state the tables and the pages mapped below UTOP are pages KADDR and pa2page accept -/
theorem Consistent.walkable (h : Consistent s) (hva : va < utop) :
    (∀ f, tbl s.mem (frameOf s.kernPgdir) (pdx va) = some f → f < s.npages.toNat) ∧
      ∀ e, xlat s.mem (frameOf s.kernPgdir) (pgnum va) = some e → pgnum e < s.npages.toNat :=
  ⟨fun f hf => (h.tbl_managed _ f (pdx_lt va) (pdx_ne_window hva) hf).1,
    fun e he => (h.mapped _ e (pgnum_lt_utop hva) he).1⟩

/-- page_remove leaves the page table of va in place -/
theorem remove_tbl (h : Consistent s) (hva : va < utop) : ∃ u, (pageRemove s.kernPgdir va).run s = .ok ((), u) ∧
    St.Fixed s u ∧ Consistent u ∧ tbl u.mem u.dir (pdx va) = tbl s.mem s.dir (pdx va) := by
  obtain ⟨l, hi⟩ := h.inv
  rcases remove_cases hi (owns_managed s _) (pgnum_lt_utop hva) with ⟨-, hrun⟩ | ⟨f, q, m, hf, -, hrun, hi'⟩
  · exact ⟨s, hrun, St.Fixed.refl s, h, rfl⟩
  · have hx := s.fixed_unmap f (ptx va) q va
    refine ⟨_, hrun, hx, hi'.consistent_of_fixed hx, ?_⟩
    rw [hx.dir, St.unmap_mem, ptx_pgnum, tbl_store hi.tables (pgnum_lt va) (by
      rw [← pdx_pgnum]; exact pdx_ne_window hva) (by rw [← pdx_pgnum]; exact hf)]

end Reached

/-- **page_lookup and the walk.** In a state whose directory names pages below npages, page_lookup agrees with
check_va2pa at va exactly when the page table of va is absent or va is mapped. A legal run from a consistent state ends in
such a state for all addresses below UTOP; and there, after page_remove at va, page_lookup returns NULL exactly when the
page table of va is absent. -/
theorem lookup_agrees (s : St) :
    (∀ pgdir va : Word, (∀ f, tbl s.mem (frameOf pgdir) (pdx va) = some f → f < s.npages.toNat) →
      (∀ e, xlat s.mem (frameOf pgdir) (pgnum va) = some e → pgnum e < s.npages.toNat) →
        (LookupAgrees s pgdir va ↔ NoEmptyEntry s pgdir va)) ∧
    ∀ os : List Op, Consistent s → LegalRun step (Legal Managed) s os →
      ∃ t, runAll step os s = .ok t ∧ ∀ va, va < utop →
        (LookupAgrees t t.kernPgdir va ↔ NoEmptyEntry t t.kernPgdir va) ∧
        ∃ u, (pageRemove t.kernPgdir va).run t = .ok ((), u) ∧
          ((∃ store, (pageLookup u.kernPgdir va).run u = .ok ((none, store), u)) ↔
            tbl t.mem t.dir (pdx va) = none) := by
  refine ⟨fun pgdir va h1 h2 => lookupAgrees_iff h1 h2, fun os hs hl => ?_⟩
  obtain ⟨t, ht, hc⟩ := runAll_inv (fun _ _ h hl => h.step hl) s os hs hl
  refine ⟨t, ht, fun va hva => ⟨lookupAgrees_iff (hc.walkable hva).1 (hc.walkable hva).2, ?_⟩⟩
  obtain ⟨u, hu, hx, hcu, htbl⟩ := remove_tbl hc hva
  refine ⟨u, hu, (lookup_none_iff (hcu.walkable hva).1).trans ?_⟩
  rw [← htbl, St.dir]

/-- a page is mapped at 0x1000, and page_lookup finds it -/
theorem lookup_agrees_small : ∃ s t, (pageInit 0xF0117123#32).run smallSt = .ok ((), s) ∧
    runAll step [.alloc 0#32, .insert 511 0x1000#32 pteW] s = .ok t ∧ LookupAgrees t t.kernPgdir 0x1000#32 := by
  obtain ⟨s, m, hs, -, hc, hpop, hcons, hlegal⟩ := smallSt_alloc
  obtain ⟨hm, hf, hr, hva, hp⟩ := hlegal
  rcases insert_spec hcons hva hm hf hr hp with ⟨-, hl, -⟩ | ⟨-, t, f, hins, -, -, hx⟩
  · rw [hc.pop.head] at hl
    cases hl
  · have hins' : step (.insert 511 0x1000#32 pteW) (s.pop 511) = .ok t :=
      step_ok (by rw [Op.call, Prog.run_bind (run_get _), Prog.run_bind hins]; rfl)
    obtain ⟨t', ht', hall⟩ := (lookup_agrees (s.pop 511)).2 [.insert 511 0x1000#32 pteW] hcons
      ⟨⟨hm, hf, hr, hva, hp⟩, fun _ _ => trivial⟩
    rw [runAll_cons hins'] at ht'
    obtain rfl : t = t' := Except.ok.inj ht'
    refine ⟨s, t, hs, by rw [runAll_cons hpop, runAll_cons hins']; rfl, (hall _ hva).1.2 (Or.inr ?_)⟩
    have hxt := hx _ (pgnum_lt 0x1000#32)
    rw [if_pos rfl] at hxt
    rw [← St.dir, hxt]
    exact Option.some_ne_none _

/-- after page_remove the entry for 0x1000 is 0, and page_lookup takes it for the address of page 0 -/
theorem lookup_removed_page : ∃ s t u store, (pageInit 0xF0117123#32).run smallSt = .ok ((), s) ∧
    runAll step [.alloc 0#32, .insert 511 0x1000#32 pteW] s = .ok t ∧
    (pageRemove t.kernPgdir 0x1000#32).run t = .ok ((), u) ∧
    (pageLookup u.kernPgdir 0x1000#32).run u = .ok ((some 0, store), u) ∧
    (checkVa2pa u.kernPgdir 0x1000#32).run u = .ok (~~~0#32, u) ∧ ¬ LookupAgrees u u.kernPgdir 0x1000#32 := by
  obtain ⟨s, m, hs, hlo, hc, hpop, hcons, hm, hf, hr, hva, hp⟩ := smallSt_alloc
  rcases insert_spec hcons hva hm hf hr hp with ⟨-, hl, -⟩ | ⟨-, t, f, hins, hfix, hct, hx⟩
  · rw [hc.pop.head] at hl
    cases hl
  · have hins' : step (.insert 511 0x1000#32 pteW) (s.pop 511) = .ok t :=
      step_ok (by rw [Op.call, Prog.run_bind (run_get _), Prog.run_bind hins]; rfl)
    obtain ⟨l, hi⟩ := hct.inv
    have hxt := hx _ (pgnum_lt 0x1000#32)
    rw [if_pos rfl] at hxt
    rcases remove_cases hi (owns_managed t _) (pgnum_lt_utop hva) with ⟨hn, -⟩ | ⟨g, q, m', hg, hpr, hrun, hi'⟩
    · rw [hxt] at hn
      cases hn
    · have hxu := t.fixed_unmap g (ptx 0x1000#32) q 0x1000#32
      have hcu := hi'.consistent_of_fixed hxu
      have hn : (t.unmap g (ptx 0x1000#32) q 0x1000#32).npages.toNat = 512 := by
        rw [hxu.npages, hfix.npages, (s.fixed_pop 511).npages, hlo.npages]
        rfl
      have htbl : tbl (t.unmap g (ptx 0x1000#32) q 0x1000#32).mem (t.unmap g (ptx 0x1000#32) q 0x1000#32).dir
          (pdx 0x1000#32) = some g := by
        rw [hxu.dir, St.unmap_mem, ptx_pgnum, tbl_store hi.tables (pgnum_lt _) (by
          rw [← pdx_pgnum]; exact pdx_ne_window hva) (by rw [← pdx_pgnum]; exact hg), hg]
      have hfound : Found (t.unmap g (ptx 0x1000#32) q 0x1000#32) (t.unmap g (ptx 0x1000#32) q 0x1000#32).kernPgdir
          0x1000#32 g := ⟨htbl, (hcu.walkable hva).1 g htbl⟩
      have h0 : (t.unmap g (ptx 0x1000#32) q 0x1000#32).mem g (ptx 0x1000#32) = 0#32 := by simp [Mem.set]
      have hlook := run_lookup_found hfound (by rw [h0, hn]; decide)
      have hcheck := run_check_found hfound
      rw [h0] at hlook
      rw [h0, if_neg not_present_zero] at hcheck
      refine ⟨s, t, _, _, hs, by rw [runAll_cons hpop, runAll_cons hins']; rfl, hrun, hlook, hcheck, fun ha => ?_⟩
      rcases (lookupAgrees_iff (hcu.walkable hva).1 (hcu.walkable hva).2).1 ha with hno | hno
      · rw [← St.dir, htbl] at hno
        cases hno
      · apply hno
        rw [← St.dir, xlat_of_tbl (by rw [← pdx_pgnum]; exact htbl), ← ptx_pgnum, h0, if_neg not_present_zero]

end Jos
