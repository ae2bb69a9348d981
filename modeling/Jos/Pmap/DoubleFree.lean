/-
Double frees.

page_free takes a page with a non-NULL pp_link for one that is already free. Every page of the list but the last has a
link, so the test misses the last page. Results:
- `freed_listed`: page_free of a listed page panics unless it is the last one, with no reference;
- `last_freed_cyclic`: freeing the last page closes the list to a circle;
- `allocFree_step`: a call of page_alloc or page_free that returns, and does not free the last page, keeps the list
  finite;
- `double_free_caught`: the three together, over whole runs with arbitrary arguments;
- `double_free_missed`: after page_init the last page of the list can be freed again.
-/
import Jos.Pmap.Consistent

namespace Jos

open Jos.Lib

/-- pp ends the free list -/
def LastFree (s : St) (pp : ℕ) : Prop := ∃ l, FreeList s (l ++ [pp])

/-- page_alloc, or page_free of a page that does not end the list -/
def FreesNotLast (s : St) : Op → Prop
  | .alloc _ => True
  | .free pp => ¬ LastFree s pp
  | _ => False

section Free

variable {s t : St} {l : List ℕ} {pp : ℕ}

/-- the link of a listed page is NULL at the end of the list only -/
theorem link_none_iff (h : FreeList s l) (hp : pp ∈ l) : s.link pp = none ↔ LastFree s pp := by
  constructor
  · intro hn
    obtain ⟨a, b, rfl⟩ := List.append_of_mem hp
    obtain ⟨u, -, hu⟩ := (seg_append ..).1 h
    obtain rfl : b = [] := chain_none (hn ▸ hu.2)
    exact ⟨a, h⟩
  · rintro ⟨m, hm⟩
    obtain ⟨u, -, hu⟩ := (seg_append ..).1 hm
    exact hu.2

/-- page_free of a listed page panics, unless the page ends the list and has no reference -/
theorem freed_listed (h : FreeList s l) (hp : pp ∈ l) :
    (∃ msg, (pageFree pp).run s = .error (.panic msg)) ↔ ¬ (LastFree s pp ∧ s.ref pp = 0#16) := by
  rw [← link_none_iff h hp]
  constructor
  · rintro ⟨msg, hmsg⟩ ⟨hl, hr⟩
    rw [run_pageFree hr hl] at hmsg
    cases hmsg
  · intro hn
    refine ⟨"page_free() - pp_ref is nonzero or pp_link is not NULL\n", ?_⟩
    by_cases hr : s.ref pp = 0#16
    · have hl : s.link pp ≠ none := fun hl => hn ⟨hl, hr⟩
      simp [pageFree, hl]
    · simp [pageFree, hr]

/-- the page freed again is linked to the head of the list that it ends -/
theorem last_freed_cyclic {u : Unit} (h : LastFree s pp) (hrun : (pageFree pp).run s = .ok (u, t)) :
    ∀ m, ¬ FreeList t m := by
  obtain ⟨-, -, rfl⟩ := pageFree_ok hrun
  obtain ⟨l, hl⟩ := h
  have hnd : (l ++ [pp]).Nodup := Chain.nodup hl
  have hpl : pp ∉ l := fun hp => (List.disjoint_of_nodup_append hnd) hp List.mem_cons_self
  obtain ⟨v, hseg, hv⟩ := (seg_append ..).1 hl
  obtain rfl : v = some pp := hv.1
  intro m hm
  -- from pp, the new link leads through l back to pp
  have hhead : Chain (Function.update s.link pp s.pageFreeList) (some pp) m := by
    have : Chain (s.push pp).link (s.push pp).pageFreeList m := hm
    rwa [St.push_link, St.push_free] at this
  obtain ⟨m1, rfl, hm1⟩ := hhead.head
  rw [Function.update_self] at hm1
  have hback : Seg (Function.update s.link pp s.pageFreeList) s.pageFreeList l (some pp) := hseg.update hpl
  have hround : Chain (Function.update s.link pp s.pageFreeList) s.pageFreeList (l ++ (pp :: m1)) :=
    (seg_append ..).2 ⟨some pp, hback, hhead⟩
  have hlen := congrArg List.length (hround.unique hm1)
  simp at hlen
  omega

/-- page_alloc takes the first page off the list -/
theorem pageAlloc_ok {fl : Word} {r : Option ℕ} (h : FreeList s l) (hrun : (pageAlloc fl).run s = .ok (r, t)) :
    FreeList t l.tail := by
  cases l with
  | nil =>
    rw [run_pageAlloc_none (chain_nil.1 h)] at hrun
    obtain ⟨-, rfl⟩ := Prod.ext_iff.1 (Except.ok.inj hrun)
    exact h
  | cons p m =>
    by_cases hz : fl &&& allocZero = 0#32
    · rw [run_pageAlloc_some h.head hz] at hrun
      obtain ⟨-, rfl⟩ := Prod.ext_iff.1 (Except.ok.inj hrun)
      exact h.pop
    · -- the frame is cleared if KADDR accepts it
      by_cases hk : (s.pop p).npages.toNat ≤ pgnum (page2pa p)
      · have hkaddr : (page2kva p).run (s.pop p) = .error (.panic "KADDR called with invalid pa %08lx") := by
          simp [page2kva, kaddr, hk]
        simp [pageAlloc, h.head, hz, ← St.pop.eq_def, hkaddr] at hrun
      · have hkaddr := run_kaddr (s := s.pop p) (page2pa p) (by omega)
        simp only [pageAlloc, StateT.run_bind, run_ldFree, h.head, ok_bind, run_ldLink, run_stFree, run_stLink,
          run_issue, hz, ne_eq, not_false_eq_true, if_true, ← St.pop.eq_def, page2kva, hkaddr, run_memset, run_pure,
          Except.ok.injEq, Prod.mk.injEq] at hrun
        obtain ⟨-, rfl⟩ := hrun
        exact h.pop

theorem step_eq_ok {o : Op} (h : step o s = .ok t) : ∃ u, o.call.run s = .ok (u, t) := by
  unfold step at h
  cases hc : o.call.run s with
  | error e => rw [hc] at h; cases h
  | ok q =>
    rw [hc] at h
    obtain rfl : q.2 = t := Except.ok.inj h
    exact ⟨q.1, rfl⟩

/-- a call that returns and does not free the last page keeps the list finite -/
theorem allocFree_step (o : Op) (h : ∃ m, FreeList s m) (hl : FreesNotLast s o) (hrun : step o s = .ok t) :
    ∃ m, FreeList t m := by
  obtain ⟨m, hm⟩ := h
  obtain ⟨u, hu⟩ := step_eq_ok hrun
  cases o with
  | alloc fl =>
    obtain ⟨r, s1, h1, h2⟩ := Prog.bind_ok.1 hu
    obtain ⟨-, rfl⟩ := Prod.ext_iff.1 (Except.ok.inj h2)
    exact ⟨_, pageAlloc_ok hm h1⟩
  | free pp =>
    obtain ⟨-, hlink, rfl⟩ := pageFree_ok hu
    -- a page of the list without a link ends it
    have hp : pp ∉ m := fun hp => hl ((link_none_iff hm hp).1 hlink)
    exact ⟨_, hm.push hp⟩
  | insert => exact hl.elim
  | remove => exact hl.elim
  | walk => exact hl.elim

end Free

/-- **Double frees.** page_free of a listed page panics exactly if it does not end the list (or is referenced); a run of
page_alloc and page_free with any arguments that does not panic keeps the list finite and free of duplicates, as long as
no call frees the page that ends the list; and a call that does, makes the list a circle. -/
theorem double_free_caught (s : St) :
    (∀ (l : List ℕ) (pp : ℕ), FreeList s l → pp ∈ l →
      ((∃ msg, (pageFree pp).run s = .error (.panic msg)) ↔ ¬ (LastFree s pp ∧ s.ref pp = 0#16))) ∧
    (∀ (t : St) (os : List Op), (∃ l, FreeList s l) → LegalRun step FreesNotLast s os →
      runAll step os s = .ok t → ∃ m, FreeList t m ∧ m.Nodup) ∧
    ∀ (t : St) (pp : ℕ), LastFree s pp → (pageFree pp).run s = .ok ((), t) → ∀ m, ¬ FreeList t m := by
  refine ⟨fun l pp h hp => freed_listed h hp, fun t os hs hl hrun => ?_, fun t pp h hrun => last_freed_cyclic h hrun⟩
  obtain ⟨m, hm⟩ := runAll_keeps (fun _ o _ h hl hr => allocFree_step o h hl hr) s t os hs hl hrun
  exact ⟨m, hm, Chain.nodup hm⟩

/-- after page_init the first page of the list is not freed again, and the list stays finite when it is allocated -/
theorem double_free_caught_small : ∃ s t msg, (pageInit 0xF0117123#32).run smallSt = .ok ((), s) ∧
    (pageFree 511).run s = .error (.panic msg) ∧ runAll step [.alloc 0#32] s = .ok t ∧ ∃ m, FreeList t m ∧ m.Nodup := by
  obtain ⟨s, m, hs, -, hc, hpop, -⟩ := smallSt_alloc
  have hne : ¬ LastFree s 511 := fun h => by
    have := (link_none_iff hc List.mem_cons_self).2 h
    rw [hc.2.1] at this
    cases this
  obtain ⟨msg, hmsg⟩ := ((double_free_caught s).1 _ 511 hc List.mem_cons_self).2 fun h => hne h.1
  have hrun : runAll step [.alloc 0#32] s = .ok (s.pop 511) := runAll_cons hpop []
  exact ⟨s, _, msg, hs, hmsg, hrun, (double_free_caught s).2.1 _ [.alloc 0#32] ⟨_, hc⟩ ⟨trivial, fun _ _ => trivial⟩ hrun⟩

theorem smallSt_last : ∃ l, initFree smallSt = l ++ [1] := by
  have hrange : List.range smallSt.npages.toNat = 0 :: 1 :: List.range' 2 510 := by
    change List.range 512 = _
    rw [List.range_eq_range', List.range'_succ, List.range'_succ]
  have h0 : [0].filter (fun i => ¬ Reserved smallSt i) = [] := by decide
  have h1 : [1].filter (fun i => ¬ Reserved smallSt i) = [1] := by decide
  refine ⟨(List.range' 2 510).reverse.filter fun i => ¬ Reserved smallSt i, ?_⟩
  rw [initFree, hrange, List.reverse_cons, List.reverse_cons, List.filter_append, List.filter_append, h0, h1,
    List.append_nil]

/-- page 1 ends the list that page_init leaves; freed again, it is its own successor on a list without end -/
theorem double_free_missed : ∃ s t l, (pageInit 0xF0117123#32).run smallSt = .ok ((), s) ∧ FreeList s l ∧ 1 ∈ l ∧
    (pageFree 1).run s = .ok ((), t) ∧ ∀ m, ¬ FreeList t m := by
  obtain ⟨l, hl⟩ := smallSt_last
  obtain ⟨s, hs, -, hc, hr, -⟩ := pageInit_consistent 0xF0117123#32 (s := smallSt) (by decide) rfl smallSt_onlySelf hl
  have hin : 1 ∈ l ++ [1] := List.mem_append_right _ List.mem_cons_self
  have hrun := run_pageFree (hr 1 (by decide)) ((link_none_iff hc hin).2 ⟨l, hc⟩)
  exact ⟨s, _, _, hs, hc, hin, hrun, last_freed_cyclic ⟨l, hc⟩ hrun⟩

end Jos
