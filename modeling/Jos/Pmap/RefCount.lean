/-
pp_ref has 16 bits, the address space below UTOP 977920 pages.

page_insert increments pp_ref without a check. As long as no page_insert wraps it (`NoWrap`: the counter is below 65535,
or the page is re-inserted where it is mapped), a mapped page is never free and its counter is never below the number of
its mappings. Results:
- `mapped_page_not_free`: so it is in every run of page_insert and page_remove whose insertions do not wrap; and an
  insertion that wraps leaves a counter below the number of mappings;
- `mapped_page_freed`: a page with 65535 mappings is inserted once more, and then again where it is mapped: the second
  call frees it, and maps it.
-/
import Jos.Pmap.Consistent

namespace Jos

open Jos.Lib

/-- page_insert and page_remove below UTOP, of managed pages off the list, that do not wrap pp_ref -/
def Counted (s : St) : Op → Prop
  | .insert pp va perm => Managed s pp ∧ ¬ OnFreeList s pp ∧ NoWrap s pp va ∧ va < utop ∧ perm.toNat < 4096
  | .remove va => va < utop
  | _ => False

/-- no page that is mapped below UTOP is free, and no pp_ref is below the number of mappings -/
structure MappingsCounted (s : St) : Prop where
  not_free : ∀ n e, n < 977920 → xlat s.mem s.dir n = some e → ¬ OnFreeList s (pgnum e)
  counted : ∀ p, pteUses s p ≤ refs s p

section Counted

variable {s t : St}

theorem Consistent.mappingsCounted (h : Consistent s) : MappingsCounted s := by
  obtain ⟨l, hi⟩ := h.inv
  refine ⟨?_, ?_⟩
  · intro n e hn he hf
    rw [onFreeList_iff hi.chain] at hf
    exact hi.pool.slot_not_free (mem_pte.2 hn) (by simp [named, he]) hf
  · intro p
    have h1 := hi.pool.ref_eq p
    have h2 := uses_eq s p
    omega

theorem Consistent.step_counted (h : Consistent s) {o : Op} (hl : Counted s o) :
    ∃ t, Jos.step o s = .ok t ∧ Consistent t := by
  cases o with
  | insert pp va perm =>
    obtain ⟨hm, hf, hr, hva, hp⟩ := hl
    obtain ⟨l, hi⟩ := h.inv
    rw [onFreeList_iff hi.chain] at hf
    rcases insert_cases hi (owns_managed s _) (pgnum_lt_utop hva) hm hf hr hp with
      ⟨-, -, hrun⟩ | ⟨t, m, f, m', hwk, -, hrun, hi'⟩
    · exact ⟨s, step_ok (by rw [Op.call, Prog.run_bind (run_get s), Prog.run_bind hrun]; rfl), h⟩
    · exact ⟨_, step_ok (by rw [Op.call, Prog.run_bind (run_get s), Prog.run_bind hrun]; rfl),
        hi'.consistent_of_fixed (hwk.fixed.trans (St.fixed_insert ..))⟩
  | remove va => exact h.step (o := .remove va) hl
  | alloc fl => exact hl.elim
  | free pp => exact hl.elim
  | walk va create => exact hl.elim

theorem St.insert_ref (t : St) (f i pp : ℕ) (va perm : Word) : (t.insert f i pp va perm).ref =
    if present (t.mem f i) then
      Function.update (Function.update t.ref pp (t.ref pp + 1#16)) (pgnum (t.mem f i))
        (Function.update t.ref pp (t.ref pp + 1#16) (pgnum (t.mem f i)) - 1#16)
    else Function.update t.ref pp (t.ref pp + 1#16) := by
  by_cases hp : present (t.mem f i)
  · simp [St.insert, hp]
  · simp [St.insert, hp]

/-- an insertion that wraps pp_ref ends with a counter of 0 for a mapped page -/
theorem insert_wraps (h : Consistent s) {pp : ℕ} {va perm : Word} (hm : Managed s pp) (hf : ¬ OnFreeList s pp)
    (hva : va < utop) (hp : perm.toNat < 4096) (hr : ¬ NoWrap s pp va)
    (hrun : (pageInsert s.kernPgdir pp va perm).run s = .ok (0, t)) : refs t pp < pteUses t pp := by
  obtain ⟨l, hi⟩ := h.inv
  rw [onFreeList_iff hi.chain] at hf
  have hva' := pgnum_lt_utop hva
  obtain ⟨hr1, hr2⟩ := not_or.1 hr
  rcases insert_run hi (owns_managed s _) hva' hf perm with ⟨-, -, hrun'⟩ | ⟨u, m, f, hwk, hiu, hrun'⟩
  · rw [hrun'] at hrun
    have h4 : -eNoMem = 0 := (Prod.ext_iff.1 (Except.ok.inj hrun)).1
    exact absurd h4 (by decide)
  · obtain rfl := (Prod.ext_iff.1 (Except.ok.inj (hrun'.symm.trans hrun))).2
    have htbl : tbl u.mem u.dir (pgnum va / 1024) = some f := by rw [← pdx_pgnum]; exact hwk.tbl hi.tables
    have hpp : pp < 1048576 := by
      have := hm.1
      have := h.npages_le
      omega
    -- the counter wraps, and removing another page does not touch it
    have h0 : (u.insert f (ptx va) pp va perm).ref pp = 0#16 := by
      have hu : u.ref pp + 1#16 = 0#16 := by
        rw [hwk.refs hf]
        unfold refs at hr1
        bv_omega
      rw [St.insert_ref]
      split_ifs with hpr
      · have hq : pp ≠ pgnum (u.mem f (ptx va)) := fun e => hr2 <| by
          have hx := hwk.xlat hi.tables (n := pgnum va) (by omega) (by omega)
          rw [xlat_of_tbl htbl, ← ptx_pgnum, if_pos hpr] at hx
          simp [named, ← hx, e]
        rw [Function.update_of_ne hq, Function.update_self, hu]
      · rw [Function.update_self, hu]
    -- but the entry for va names the page
    have hx : xlat (u.insert f (ptx va) pp va perm).mem (u.insert f (ptx va) pp va perm).dir (pgnum va) =
        some (entry (page2pa pp) perm) := by
      rw [St.insert_mem, (u.fixed_insert ..).dir, ptx_pgnum,
        xlat_store hiu.tables (pgnum_lt va) (by omega) htbl _ (pgnum_lt va), if_pos rfl, if_pos (present_entry _ _)]
    have hpos : 0 < pteUses (u.insert f (ptx va) pp va perm) pp := by
      refine Finset.card_pos.2 ⟨pgnum va, Finset.mem_filter.2 ⟨Finset.mem_range.2 hva', ?_⟩⟩
      rw [hx, Option.map_some, pgnum_entry (page2pa_aligned pp) hp, pgnum_page2pa hpp]
    rw [refs, h0]
    exact hpos

end Counted

/-! ## A page with 65535 mappings -/

/-- page 400 is mapped at every address of the tables 300, ..., 363 but the last one; no page is free -/
def fullSt : St :=
  { smallSt with
    pages := fun p => ⟨none, if 300 ≤ p ∧ p < 364 then 1 else if p = 400 then 65535 else 0⟩
    mem := fun f i =>
      if f = 280 then (if i < 64 then tableEntry (300 + i) else if i = 957 then 0x118005 else 0)
      else if 300 ≤ f ∧ f < 364 ∧ (f - 300) * 1024 + i < 65535 then 0x190001 else 0 }

theorem fullSt_tbl {d : ℕ} (hw : d ≠ 957) :
    tbl fullSt.mem fullSt.dir d = if d < 64 then some (300 + d) else none := by
  have hd : fullSt.dir = 280 := by decide
  unfold tbl
  rw [hd]
  split_ifs with hp hlt hlt
  · simp [fullSt, hlt, pgnum_tableEntry (p := 300 + d) (by omega)]
  · simp [fullSt, hlt, hw, not_present_zero] at hp
  · simp [fullSt, hlt, present_tableEntry (p := 300 + d) (by omega)] at hp
  · rfl

theorem fullSt_xlat {n : ℕ} (hn : n < 977920) :
    xlat fullSt.mem fullSt.dir n = if n < 65535 then some 0x190001#32 else none := by
  have ht := fullSt_tbl (d := n / 1024) (by omega)
  by_cases hlt : n / 1024 < 64
  · rw [if_pos hlt] at ht
    have hm : fullSt.mem (300 + n / 1024) (n % 1024) = if n < 65535 then 0x190001#32 else 0#32 := by
      have h1 : 300 + n / 1024 ≠ 280 := by omega
      have h2 : (300 ≤ 300 + n / 1024 ∧ 300 + n / 1024 < 364 ∧ (300 + n / 1024 - 300) * 1024 + n % 1024 < 65535) ↔
          n < 65535 := by omega
      simp only [fullSt, h1, if_false, h2]
      rfl
    rw [xlat_of_tbl ht, hm]
    split_ifs with h1 h2 h2
    · rfl
    · exact absurd (by decide) h2
    · exact absurd h2 (by decide)
    · rfl
  · rw [if_neg hlt] at ht
    rw [xlat_none ht, if_neg (by omega)]

theorem fullSt_pteUses (p : ℕ) : pteUses fullSt p = if p = 400 then 65535 else 0 := by
  have hfilter : ((Finset.range 977920).filter fun n => (xlat fullSt.mem fullSt.dir n).map pgnum = some p) =
      if p = 400 then Finset.range 65535 else ∅ := by
    have h400 : pgnum 0x190001#32 = 400 := by decide
    ext n
    rw [Finset.mem_filter, Finset.mem_range]
    by_cases hn : n < 977920
    · rw [fullSt_xlat hn]
      split_ifs with h1 h2 h2
      · simp only [Option.map_some, h400, h2, hn, h1, Finset.mem_range, and_self]
      · simp [h400, Ne.symm h2]
      · simp [h1]
      · simp
    · split_ifs
      · simp only [hn, false_and, Finset.mem_range, false_iff]
        omega
      · simp [hn]
  rw [pteUses, hfilter]
  split_ifs
  · exact Finset.card_range _
  · rfl

theorem fullSt_pdeUses (p : ℕ) : pdeUses fullSt p = if 300 ≤ p ∧ p < 364 then 1 else 0 := by
  have hfilter : (((Finset.range 1024).erase 957).filter fun d => tbl fullSt.mem fullSt.dir d = some p) =
      if 300 ≤ p ∧ p < 364 then {p - 300} else ∅ := by
    ext d
    rw [Finset.mem_filter, Finset.mem_erase, Finset.mem_range]
    by_cases hw : d = 957
    · split_ifs
      · simp only [hw, ne_eq, not_true_eq_false, false_and, Finset.mem_singleton, false_iff]
        omega
      · simp [hw]
    · rw [fullSt_tbl hw]
      split_ifs with h1 h2 h2
      · simp only [ne_eq, hw, not_false_eq_true, true_and, Option.some.injEq, Finset.mem_singleton]
        omega
      · simp only [Option.some.injEq, Finset.notMem_empty, iff_false]
        omega
      · simp only [and_false, Finset.mem_singleton, false_iff]
        omega
      · simp
  rw [pdeUses, hfilter]
  split_ifs
  · exact Finset.card_singleton _
  · rfl

theorem fullSt_managed {p : ℕ} (h1 : 282 ≤ p) (h2 : p < 512) : Managed fullSt p := by
  have hpa : (page2pa p).toNat = p * 4096 := page2pa_toNat (by omega)
  refine ⟨h2, ?_⟩
  rintro (⟨-, hlt⟩ | hz)
  · rw [BitVec.lt_def, hpa] at hlt
    have : (fullSt.nextfree - kernbase).toNat = 282 * 4096 := by decide
    omega
  · rw [hz] at hpa
    simp at hpa
    omega

theorem fullSt_consistent : Consistent fullSt where
  npages_le := by decide
  self := by decide
  dir_reserved := by decide
  tbl_managed := fun d f _ hw hf => by
    rw [fullSt_tbl hw] at hf
    split_ifs at hf
    cases hf
    exact fullSt_managed (by omega) (by omega)
  tbl_inj := fun d d' f _ _ hw hw' hf hf' => by
    rw [fullSt_tbl hw] at hf
    rw [fullSt_tbl hw'] at hf'
    split_ifs at hf hf'
    cases hf
    have := Option.some.inj hf'
    omega
  mapped := fun n e hn he => by
    rw [fullSt_xlat hn] at he
    split_ifs at he
    cases he
    exact fullSt_managed (p := pgnum 0x190001#32) (by decide) (by decide)
  classes := by
    refine ⟨[], rfl, by simp, fun p _ => existsUnique_class List.nodup_nil ?_ (by simp) fun _ => rfl⟩
    have hr : refs fullSt p = if 300 ≤ p ∧ p < 364 then 1 else if p = 400 then 65535 else 0 := by
      simp only [refs, St.ref, fullSt]
      split_ifs <;> rfl
    rw [hr, fullSt_pteUses, fullSt_pdeUses]
    split_ifs <;> first | rfl | omega

theorem step_insert {s t : St} {pp : ℕ} {va perm : Word} {r : ℤ}
    (h : (pageInsert s.kernPgdir pp va perm).run s = .ok (r, t)) : step (.insert pp va perm) s = .ok t :=
  step_ok (by rw [Op.call, Prog.run_bind (run_get s), Prog.run_bind h]; rfl)

/-- fullSt with page 400 mapped at the last entry of table 363 too: its pp_ref is 0 -/
def wrappedSt : St := fullSt.insert 363 1023 400 0x0FFFF000#32 0#32

theorem fullSt_wrap : (pageInsert fullSt.kernPgdir 400 0x0FFFF000#32 0#32).run fullSt = .ok (0, wrappedSt) := by
  have hf : Found fullSt fullSt.kernPgdir 0x0FFFF000#32 363 := ⟨by decide, by decide⟩
  have hx : ptx 0x0FFFF000#32 = 1023 := by decide
  rw [run_insert (hf.walk true) hf fun hp => absurd hp (by decide), hx]
  rfl

/-- page 400 is inserted again at address 0: its reference is the first, page_remove takes it back and frees the page -/
theorem wrappedSt_insert : (pageInsert wrappedSt.kernPgdir 400 0x0#32 0#32).run wrappedSt =
    .ok (0, wrappedSt.insert 300 0 400 0x0#32 0#32) := by
  have hf : Found wrappedSt wrappedSt.kernPgdir 0x0#32 300 := ⟨by decide, by decide⟩
  have hx : ptx 0x0#32 = 0 := by decide
  exact hx ▸ run_insert (hf.walk true) hf fun _ => ⟨by decide, fun _ => by decide⟩

/-! ## Whole runs -/

/-- **Reference counts without wrapping.** In a run whose insertions do not wrap pp_ref no mapped page is free and every
counter covers its mappings; a successful insertion that wraps breaks this at once. -/
theorem mapped_page_not_free (s : St) (h : Consistent s) :
    (∀ os : List Op, LegalRun step Counted s os → ∃ t, runAll step os s = .ok t ∧ MappingsCounted t) ∧
    ∀ (t : St) (pp : ℕ) (va perm : Word), Managed s pp → ¬ OnFreeList s pp → va < utop → perm.toNat < 4096 →
      ¬ NoWrap s pp va → (pageInsert s.kernPgdir pp va perm).run s = .ok (0, t) → refs t pp < pteUses t pp := by
  constructor
  · intro os hl
    obtain ⟨t, ht, hc⟩ := runAll_inv (fun _ _ h hl => h.step_counted hl) s os h hl
    exact ⟨t, ht, hc.mappingsCounted⟩
  · intro t pp va perm hm hf hva hp hr hrun
    exact insert_wraps h hm hf hva hp hr hrun

/-- the page is removed and re-inserted without wrapping; its 65536th mapping wraps -/
theorem mapped_page_not_free_full :
    (∃ t, runAll step [.insert 400 0x0#32 pteW, .remove 0x0#32] fullSt = .ok t ∧ MappingsCounted t) ∧
    refs wrappedSt 400 < pteUses wrappedSt 400 := by
  have hm : Managed fullSt 400 := fullSt_managed (by decide) (by decide)
  have hf : ¬ OnFreeList fullSt 400 := fun h => by
    have hl : FreeList fullSt [] := rfl
    rw [onFreeList_iff hl] at h
    cases h
  constructor
  · exact (mapped_page_not_free fullSt fullSt_consistent).1 _
      ⟨⟨hm, hf, Or.inr (by decide), by decide, by decide⟩, fun _ _ => ⟨(by decide : 0x0#32 < utop), fun _ _ => trivial⟩⟩
  · refine (mapped_page_not_free fullSt fullSt_consistent).2 wrappedSt 400 0x0FFFF000#32 0#32 hm hf (by decide)
      (by decide) (fun h => ?_) fullSt_wrap
    rcases h with h | h
    · exact absurd h (by decide)
    · exact absurd h (by decide)

/-- **The page that is freed while it is mapped.** -/
theorem mapped_page_freed : Consistent fullSt ∧ Managed fullSt 400 ∧ ∃ t e,
    runAll step [.insert 400 0x0FFFF000#32 0#32, .insert 400 0x0#32 0#32] fullSt = .ok t ∧
    xlat t.mem t.dir 0 = some e ∧ pgnum e = 400 ∧ OnFreeList t 400 := by
  refine ⟨fullSt_consistent, fullSt_managed (by decide) (by decide), wrappedSt.insert 300 0 400 0x0#32 0#32, 0x190001#32,
    ?_, ?_, by decide, [400], ?_, List.mem_cons_self⟩
  · rw [runAll_cons (step_insert fullSt_wrap), runAll_cons (step_insert wrappedSt_insert)]
    rfl
  · decide
  · exact ⟨by decide, (by decide : (wrappedSt.insert 300 0 400 0x0#32 0#32).link 400 = none)⟩

end Jos
