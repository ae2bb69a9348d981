/-
TLB coherence.

The hardware caches translations of kern_pgdir (`tlb`, an instance of `Cached`): at any moment it may load what the walk
of the current tables gives, and invlpg throws one page out. The log of a step holds its stores and TLB instructions in
the order they are issued, so a step is a list of events between which the TLB may load. Results:
- `Walked.fresh`: pgdir_walk changes directory entries from absent to present only;
- `insert_fresh`, `unmap_fresh`: a present entry is cleared and invalidated before anything else is stored in it;
- `step_fresh`: the events of a legal step leave no stale entry behind, and are what the step does to memory;
- `tlb_coherent`: after every run of legal steps each TLB entry is the current translation;
- `memInitBoot_coherent`: from page_init on, where every reserved page has its reference, whatever page is inserted;
- `tlb_stale_window`: without that reference kern_pgdir's own page can be freed, and a stale entry stays.
-/
import Jos.Pmap.Startup
import Jos.Lib.Cache

namespace Jos

open Jos.Lib

/-- the TLB: virtual page to frame and permissions -/
def tlb (dir : ℕ) : Cached Mem Ev ℕ (ℕ × Word) where
  look m n := if n < 1048576 then mmu m dir n else none
  act e m := e.mem m
  flush
    | .invlpg va => {pgnum va}
    | .lcr3 _ => Set.univ
    | _ => ∅

theorem tlb_look {m m' : Mem} {dir n : ℕ} (h : n < 1048576 → mmu m' dir n = mmu m dir n) :
    (tlb dir).look m' n = (tlb dir).look m n := by
  simp only [tlb]
  split_ifs with hn
  · exact h hn
  · rfl

/-! ## What the events do to memory -/

theorem acts_append (dir : ℕ) (es fs : List Ev) (m : Mem) :
    (tlb dir).acts (es ++ fs) m = (tlb dir).acts fs ((tlb dir).acts es m) := List.foldl_append

theorem acts_fill (dir f n : ℕ) (v : Word) (m : Mem) : (tlb dir).acts (fillEvs f v n) m = m.fill f n v := by
  induction n with
  | zero =>
    funext f' i'
    simp [Cached.acts, fillEvs, Mem.fill]
  | succ n ih =>
    have hs : fillEvs f v (n + 1) = fillEvs f v n ++ [.store f n v] := by
      simp [fillEvs, List.range_succ]
    rw [hs, acts_append, ih]
    funext f' i'
    simp only [Cached.acts, List.foldl_cons, List.foldl_nil, tlb, Ev.mem, Mem.set, Mem.fill]
    by_cases h1 : f' = f <;> by_cases h2 : i' = n <;> by_cases h3 : i' < n <;> simp [h1, h2, h3] <;> omega

section Events

variable {own : ℕ → Prop} {extra : ℕ → ℕ} {s t : St} {l m : List ℕ} {va perm : Word} {pp p : ℕ}

/-- a free page may be written: no walk goes through it -/
theorem look_off_free (h : Tables s (p :: l)) {m' : Mem} (hm : ∀ g, g ≠ p → m' g = s.mem g) (n : ℕ) :
    (tlb s.dir).look m' n = (tlb s.dir).look s.mem n := by
  have hoff : ∀ f i, f ∉ p :: l → m' f i = s.mem f i := fun f i hf => by
    rw [hm f fun e => hf (e ▸ List.mem_cons_self)]
  exact tlb_look fun hn => mmu_congr (h.xlat_off_free hoff hn) (hoff _ _ h.dir_free)

theorem alloc_fresh (h : Tables s (p :: l)) (v : Word) (n : ℕ) :
    (tlb s.dir).Fresh s.mem ([.alloc p] ++ fillEvs p v n) := by
  refine Cached.Fresh.inert (I := fun m' => ∀ g, g ≠ p → m' g = s.mem g) (fun _ _ => rfl) ?_
  intro m' hm e he
  have hkeep : ∀ g, g ≠ p → (tlb s.dir).act e m' g = s.mem g := fun g hg => by
    rcases List.mem_append.1 he with he | he
    · rw [List.mem_singleton] at he
      rw [he]
      exact hm g hg
    · obtain ⟨i, -, rfl⟩ := List.mem_map.1 he
      rw [← hm g hg]
      funext j
      simp [tlb, Ev.mem, Mem.set, hg]
  exact ⟨hkeep, fun n => by rw [look_off_free h hkeep, look_off_free h hm]⟩

theorem Walked.fresh {f : ℕ} (h : Walked s l va t m f) (ht : Tables s l) (hw : pdx va ≠ 957) :
    ∃ es, t.log = s.log ++ es ∧ (tlb s.dir).acts es s.mem = t.mem ∧ (tlb s.dir).Fresh s.mem es := by
  cases h with
  | found hf => exact ⟨[], by simp, rfl, Cached.Fresh.nil _⟩
  | made ha hl =>
    subst hl
    have hfill : (tlb s.dir).acts ([.alloc f] ++ fillEvs f 0#32 nptentries) s.mem = s.mem.fill f nptentries 0#32 := by
      rw [acts_append]
      exact acts_fill ..
    refine ⟨_, s.linkTable_log .., by rw [acts_append, hfill]; rfl, (alloc_fresh ht _ _).append ?_⟩
    rw [hfill]
    refine Cached.Fresh.grow ?_
    intro n b hb
    -- before the new directory entry is stored, the walks are those of s
    rw [look_off_free ht fun g hg => by funext i; simp [Mem.fill, hg]] at hb
    rw [← hb]
    refine tlb_look ?_
    intro hn
    change mmu (linkMem s.mem s.dir (pdx va) f) s.dir n = mmu s.mem s.dir n
    have hx : Jos.xlat s.mem s.dir n ≠ none := fun hx => by
      simp [tlb, mmu, hx] at hb
    have hdir := linkMem_dir ht (d := pdx va) (n / 1024)
    by_cases hwin : n / 1024 = 957
    · have hne : n % 1024 ≠ pdx va := fun e => hx <| by
        rw [xlat_of_tbl (hwin ▸ ht.self), e, if_neg (tbl_eq_none.1 ha)]
      refine mmu_congr ?_ ?_
      · rw [xlat_link_window ht hw hwin, if_neg hne]
      · rw [hdir, hwin, if_neg (Ne.symm hw)]
    · have hne : n / 1024 ≠ pdx va := fun e => hx (xlat_none (e ▸ ha))
      refine mmu_congr (xlat_link ht ha hn hwin) ?_
      rw [hdir, if_neg hne]

section Store

variable {n f : ℕ} (h : Tables s l) (hn : n < 1048576) (hw : n / 1024 ≠ 957)
  (hf : tbl s.mem s.dir (n / 1024) = some f) (v : Word)
include h hn hw hf

/-- a store into the page table of page n is seen by the walk of page n only -/
theorem look_store {a : ℕ} (ha : a ≠ n) :
    (tlb s.dir).look (s.mem.set f (n % 1024) v) a = (tlb s.dir).look s.mem a := by
  have hne : s.dir ≠ f := (h.tbl_dir _ _ (by omega) hw hf).symm
  refine tlb_look fun ha' => mmu_congr ?_ (by simp [Mem.set, hne])
  rw [xlat_store h hn hw hf v ha', if_neg ha]

theorem look_cleared (hv : ¬ present v) : (tlb s.dir).look (s.mem.set f (n % 1024) v) n = none := by
  simp [tlb, mmu, xlat_store h hn hw hf v hn, hv]

/-- the entry of page n is cleared, then invalidated -/
theorem unmap_fresh (hva : pgnum va = n) : (tlb s.dir).Fresh s.mem [.store f (n % 1024) v, .invlpg va] :=
  Cached.Fresh.drop (a := n) (fun _ ha => look_store h hn hw hf v ha) hva.symm rfl

/-- an entry that was not present is stored -/
theorem map_fresh (hp : (tlb s.dir).look s.mem n = none) : (tlb s.dir).Fresh s.mem [.store f (n % 1024) v] := by
  refine Cached.Fresh.grow ?_
  intro a b hb
  have ha : a ≠ n := fun e => by rw [e, hp] at hb; cases hb
  exact (look_store h hn hw hf v ha).trans hb

end Store

/-- the TLB instructions and stores of page_insert, behind those of its pgdir_walk -/
theorem insert_fresh (va : Word) {n f : ℕ} (h : Tables s l) (hn : n < 1048576) (hw : n / 1024 ≠ 957)
    (hf : tbl s.mem s.dir (n / 1024) = some f) (hva : pgnum va = n) (pp : ℕ) (perm : Word) :
    ∃ es, (s.insert f (n % 1024) pp va perm).log = s.log ++ es ∧
      (tlb s.dir).acts es s.mem = (s.insert f (n % 1024) pp va perm).mem ∧ (tlb s.dir).Fresh s.mem es := by
  by_cases hp : present (s.mem f (n % 1024))
  · refine ⟨[.store f (n % 1024) 0#32, .invlpg va] ++ [.store f (n % 1024) (entry (page2pa pp) perm)], ?_, ?_, ?_⟩
    · simp [St.insert, hp]
    · rw [St.insert_mem]
      exact Mem.set_set ..
    · refine (unmap_fresh h hn hw hf _ hva).append (Cached.Fresh.grow fun a b hb => ?_)
      change (tlb s.dir).look (s.mem.set f (n % 1024) 0#32) a = some b at hb
      change (tlb s.dir).look ((s.mem.set f (n % 1024) 0#32).set f (n % 1024) _) a = some b
      have ha : a ≠ n := fun e => by
        rw [e, look_cleared h hn hw hf _ not_present_zero] at hb
        cases hb
      rw [look_store h hn hw hf _ ha] at hb
      rw [Mem.set_set, look_store h hn hw hf _ ha, hb]
  · refine ⟨[.store f (n % 1024) (entry (page2pa pp) perm)], ?_, (s.insert_mem ..).symm, map_fresh h hn hw hf _ ?_⟩
    · simp [St.insert, hp]
    · simp [tlb, mmu, xlat_of_tbl hf, hp]

end Events

/-! ## Steps -/

/-- a page that page_insert may be given: the allocator manages it, or page_init has reserved it with a reference -/
def Insertable (s : St) (pp : ℕ) : Prop := pp < s.npages.toNat ∧ (Managed s pp ∨ 0 < refs s pp)

/-- the insertable pages of a state without references outside `extra` -/
def insertableAt (s : St) (pp : ℕ) : Prop := Managed s pp ∨ (pp < s.npages.toNat ∧ 0 < reservedRefs s pp)

section Step

variable {s t : St} {l : List ℕ} {o : Op} {own : ℕ → Prop} {extra : ℕ → ℕ}

theorem owns_insertableAt (s : St) : Owns s (insertableAt s) (reservedRefs s) :=
  ⟨fun _ hp => Or.inl hp, fun _ hp => hp.elim (fun h => h.1) fun h => h.1, fun _ hp => hp.imp_right fun h => h.2⟩

/-- in every state of a run the insertable pages are those of its start -/
theorem Insertable.at_start (h : Inv (insertableAt s) (reservedRefs s) t l) (hx : St.Fixed s t) {pp : ℕ}
    (hp : Insertable t pp) : insertableAt s pp := by
  obtain ⟨hlt, hm⟩ := hp
  rw [hx.npages] at hlt
  rw [managed_fixed hx] at hm
  rcases hm with hm | hr
  · exact Or.inl hm
  · by_cases he : 0 < reservedRefs s pp
    · exact Or.inr ⟨hlt, he⟩
    · -- then a slot names the page
      have h1 := h.pool.ref_eq pp
      have h2 : RefPool.uses userSlots (named t.mem t.dir) pp ≠ 0 := by omega
      rw [ne_eq, RefPool.uses_eq_zero_iff] at h2
      push Not at h2
      obtain ⟨σ, hσ, hs⟩ := h2
      exact h.pool.slot_own σ hσ pp hs

/-- what a step does is in its log, and no interleaving of its events leaves a stale TLB entry -/
theorem step_fresh (h : Inv own extra s l) (ho : Owns s own extra) {ins : St → ℕ → Prop} (hins : ∀ p, ins s p → own p)
    (hl : Legal ins s o) (hrun : step o s = .ok t) :
    ∃ es, t.log = s.log ++ es ∧ (tlb s.dir).acts es s.mem = t.mem ∧ (tlb s.dir).Fresh s.mem es := by
  have hnone : ∃ es, s.log = s.log ++ es ∧ (tlb s.dir).acts es s.mem = s.mem ∧ (tlb s.dir).Fresh s.mem es :=
    ⟨[], by simp, rfl, Cached.Fresh.nil _⟩
  have hT := h.tables
  cases o with
  | alloc fl =>
    rcases alloc_cases h fl with ⟨-, hr⟩ | ⟨p, m, u, rfl, hr, hx, -, ⟨hm, hlog⟩ | ⟨hm, hlog⟩⟩
    · rw [step, Op.call, Prog.run_bind hr] at hrun
      cases hrun
      exact hnone
    · rw [step, Op.call, Prog.run_bind hr] at hrun
      cases hrun
      exact ⟨_, hlog, hm.symm, alloc_fresh hT 0#32 0⟩
    · rw [step, Op.call, Prog.run_bind hr] at hrun
      cases hrun
      refine ⟨_, hlog, ?_, alloc_fresh hT _ _⟩
      rw [hm, acts_append]
      exact acts_fill ..
  | free pp =>
    obtain ⟨hm, hf, hr⟩ := hl
    rw [onFreeList_iff h.chain] at hf
    rw [step, Op.call, run_pageFree hr (h.link_none pp hm hf)] at hrun
    cases hrun
    exact hnone
  | insert pp va perm =>
    obtain ⟨hp, hf, hr, hva, hperm⟩ := hl
    rw [onFreeList_iff h.chain] at hf
    have hw : pdx va ≠ 957 := by
      have := pgnum_lt_utop hva
      rw [pdx_pgnum]; omega
    rcases insert_cases h ho (pgnum_lt_utop hva) (hins pp hp) hf (Or.inl hr) hperm with
      ⟨-, -, hr⟩ | ⟨u, m, f, m', hwk, hi, hr, -⟩
    · rw [step, Op.call, Prog.run_bind (run_get s), Prog.run_bind hr] at hrun
      cases hrun
      exact hnone
    · rw [step, Op.call, Prog.run_bind (run_get s), Prog.run_bind hr] at hrun
      cases hrun
      obtain ⟨es, hlog, hmem, hfr⟩ := hwk.fresh hT hw
      have hd : u.dir = s.dir := hwk.fixed.dir
      obtain ⟨fs, hlog', hmem', hfr'⟩ := insert_fresh va hi.tables (pgnum_lt va) (by rwa [← pdx_pgnum])
        (by rw [← pdx_pgnum]; exact hwk.tbl hT) rfl pp perm
      rw [hd] at hmem' hfr'
      rw [ptx_pgnum]
      refine ⟨es ++ fs, by rw [hlog', hlog, List.append_assoc], by rw [acts_append, hmem, hmem'], hfr.append ?_⟩
      rw [hmem]
      exact hfr'
  | remove va =>
    rcases remove_cases h ho (pgnum_lt_utop hl) with ⟨-, hr⟩ | ⟨f, q, m, hf, hp, hr, -⟩
    · rw [step, Op.call, Prog.run_bind (run_get s), hr] at hrun
      cases hrun
      exact hnone
    · rw [step, Op.call, Prog.run_bind (run_get s), hr] at hrun
      cases hrun
      have hw : pgnum va / 1024 ≠ 957 := by
        have := pgnum_lt_utop hl
        omega
      refine ⟨_, s.unmap_log .., (s.unmap_mem ..).symm, ?_⟩
      rw [ptx_pgnum]
      exact unmap_fresh hT (pgnum_lt va) hw (by rw [← pdx_pgnum]; exact hf) _ rfl
  | walk va create =>
    have hw : pdx va ≠ 957 := by
      have := pgnum_lt_utop hl
      rw [pdx_pgnum]; omega
    rcases hT.walk_cases hw create with ⟨-, -, hr⟩ | ⟨u, m, f, hwk, -, hr⟩
    · rw [step, Op.call, Prog.run_bind (run_get s), Prog.run_bind hr] at hrun
      cases hrun
      exact hnone
    · rw [step, Op.call, Prog.run_bind (run_get s), Prog.run_bind hr] at hrun
      cases hrun
      exact hwk.fresh hT hw

end Step

/-! ## Runs with a TLB -/

/-- operations one after the other, the TLB loading between any two events of their logs -/
inductive TlbRun : St → Set (ℕ × ℕ × Word) → List Op → St → Set (ℕ × ℕ × Word) → Prop where
  | nil (s : St) (C : Set (ℕ × ℕ × Word)) : TlbRun s C [] s C
  | cons {s u t : St} {C D E : Set (ℕ × ℕ × Word)} {o : Op} {os : List Op} {es : List Ev} {m : Mem}
    (hs : step o s = .ok u) (hlog : u.log = s.log ++ es) (hx : (tlb s.dir).Exec s.mem C es m D)
    (hr : TlbRun u D os t E) : TlbRun s C (o :: os) t E

/-- every TLB entry is the translation of the current tables -/
def TlbCoherent (s : St) (C : Set (ℕ × ℕ × Word)) : Prop := (tlb s.dir).Coherent s.mem C

section Run

variable {s0 s t : St} {C D : Set (ℕ × ℕ × Word)} {os : List Op} {l : List ℕ}

/-- one operation of a run that began in s0: where it leads, and what its events do to the TLB -/
theorem tlb_step (hx : St.Fixed s0 s) (h : Inv (insertableAt s0) (reservedRefs s0) s l) {o : Op}
    (hl : Legal Insertable s o) : ∃ u es m, step o s = .ok u ∧ St.Fixed s0 u ∧ u.dir = s.dir ∧
      Inv (insertableAt s0) (reservedRefs s0) u m ∧ u.log = s.log ++ es ∧ (tlb s.dir).acts es s.mem = u.mem ∧
      (tlb s.dir).Fresh s.mem es := by
  have ho : Owns s (insertableAt s0) (reservedRefs s0) := (owns_insertableAt s0).fixed hx
  have hins : ∀ p, Insertable s p → insertableAt s0 p := fun p hp => hp.at_start h hx
  obtain ⟨u, m, hu, hxu, hiu⟩ := step_inv h ho hins o hl
  obtain ⟨es, hlog, hmem, hfr⟩ := step_fresh h ho hins hl hu
  exact ⟨u, es, m, hu, hx.trans hxu, hxu.dir, hiu, hlog, hmem, hfr⟩

theorem tlbRun_exists (hx : St.Fixed s0 s) (h : Inv (insertableAt s0) (reservedRefs s0) s l)
    (hl : LegalRun step (Legal Insertable) s os) : ∃ t D, TlbRun s C os t D := by
  induction os generalizing s C l with
  | nil => exact ⟨s, C, .nil s C⟩
  | cons o os ih =>
    obtain ⟨u, es, m, hu, hxu, -, hiu, hlog, -, -⟩ := tlb_step hx h hl.1
    obtain ⟨m', D, hex⟩ := Cached.exec_exists (tlb s.dir) s.mem C es
    obtain ⟨t, E, hr⟩ := ih (C := D) hxu hiu (hl.2 u hu)
    exact ⟨t, E, .cons hu hlog hex hr⟩

theorem tlbRun_coherent (hx : St.Fixed s0 s) (h : Inv (insertableAt s0) (reservedRefs s0) s l) (hc : TlbCoherent s C)
    (hl : LegalRun step (Legal Insertable) s os) (hr : TlbRun s C os t D) : TlbCoherent t D := by
  induction hr generalizing l with
  | nil s C => exact hc
  | @cons s u t C D E o os es m hs hlog hex hr ih =>
    obtain ⟨u', es', m', hu, hxu, hd, hiu, hlog', hmem, hfr⟩ := tlb_step hx h hl.1
    obtain rfl := Except.ok.inj (hs.symm.trans hu)
    obtain rfl : es = es' := List.append_cancel_left (hlog.symm.trans hlog')
    refine ih hxu hiu ?_ (hl.2 u hs)
    have hm : m = u.mem := hex.final.trans hmem
    unfold TlbCoherent
    rw [hd, ← hm]
    exact hfr.exec hex hc

end Run

/-- **TLB coherence.** A legal run from a consistent state with a coherent TLB can be executed, and whatever the TLB loads
between the events of its operations, it is coherent after the last of them. -/
theorem tlb_coherent (s : St) (C : Set (ℕ × ℕ × Word)) (os : List Op) (h : Consistent s) (hc : TlbCoherent s C)
    (hl : LegalRun step (Legal Insertable) s os) :
    (∃ t D, TlbRun s C os t D) ∧ ∀ t D, TlbRun s C os t D → TlbCoherent t D := by
  obtain ⟨l, hi⟩ := h.inv
  have hi' : Inv (insertableAt s) (reservedRefs s) s l := hi.mono fun _ hp => Or.inl hp
  exact ⟨tlbRun_exists (St.Fixed.refl s) hi' hl, fun t D => tlbRun_coherent (St.Fixed.refl s) hi' hc hl⟩

/-- a page is mapped and unmapped while the TLB holds the entry of the UVPT window through which kern_pgdir maps itself -/
theorem tlb_coherent_small : ∃ s t D, Consistent s ∧
    TlbRun s {(957 * 1024 + 957, 280, 5#32)} [.insert 511 0x1000#32 pteW, .remove 0x1000#32] t D ∧ TlbCoherent t D := by
  obtain ⟨s, m, -, hlo, -, -, hcons, hm, hlegal⟩ := smallSt_alloc
  have hc : TlbCoherent (s.pop 511) {(957 * 1024 + 957, 280, 5#32)} := by
    intro a b hab
    rw [Set.mem_singleton_iff, Prod.mk.injEq] at hab
    obtain ⟨rfl, rfl⟩ := hab
    rw [(s.fixed_pop 511).dir, St.pop_mem, hlo.toFixed.dir, hlo.mem]
    decide
  obtain ⟨⟨t, D, hr⟩, hall⟩ := tlb_coherent (s.pop 511) _ [.insert 511 0x1000#32 pteW, .remove 0x1000#32] hcons hc
    ⟨⟨⟨hm.1, Or.inl hm⟩, hlegal⟩, fun _ _ => ⟨(by decide : 0x1000#32 < utop), fun _ _ => trivial⟩⟩
  exact ⟨_, t, D, hcons, hr, hall t D hr⟩

/-! ## From boot on -/

section Booted

variable {s0 s : St} {l : List ℕ} {kend : Word}

/-- a page that is insertable at the start of a run stays so -/
theorem Insertable.of_start (h : Inv (insertableAt s0) (reservedRefs s0) s l) (hx : St.Fixed s0 s) {pp : ℕ}
    (hp : insertableAt s0 pp) : Insertable s pp := by
  rw [Insertable, hx.npages, managed_fixed hx]
  rcases hp with hm | ⟨hlt, hr⟩
  · exact ⟨hm.1, Or.inl hm⟩
  · have hrefs := h.pool.ref_eq pp
    exact ⟨hlt, Or.inr (by omega)⟩

/-- page_init leaves every page with the allocator or with a reference -/
theorem memInitBoot_insertable {t : St} {u : Unit} (h0 : s.nextfree = 0#32) (hl : s.pageFreeList = none)
    (hk : KernelEnd kend) (hrun : (memInitBoot kend).run s = .ok (u, t)) {pp : ℕ} (hp : pp < t.npages.toNat) :
    insertableAt t pp := by
  obtain ⟨-, hlo, -⟩ := memInitBoot_ok h0 hl hk hrun
  have hM : Managed t = Managed (s.boot (roundup kend pgsize)) := managed_fixed hlo.toFixed
  by_cases hm : Managed t pp
  · exact Or.inl hm
  · have hlt : pp < s.npages.toNat := by rwa [hlo.npages, St.boot_npages] at hp
    have hres : Reserved (s.boot (roundup kend pgsize)) pp := by
      by_contra hno
      exact hm (hM ▸ ⟨by rwa [St.boot_npages], hno⟩)
    refine Or.inr ⟨hp, ?_⟩
    rw [reservedRefs, if_neg hm, refs, memInitBoot_reserved h0 hl hk hrun hlt hres]
    decide

/-- so there a run may insert any page -/
theorem legal_insertable {os : List Op} (hall : ∀ pp, pp < s0.npages.toNat → insertableAt s0 pp) (hx : St.Fixed s0 s)
    (h : Inv (insertableAt s0) (reservedRefs s0) s l)
    (hl : LegalRun step (Legal fun s pp => pp < s.npages.toNat) s os) : LegalRun step (Legal Insertable) s os := by
  induction os generalizing s l with
  | nil => trivial
  | cons o os ih =>
    have hlegal : Legal Insertable s o := by
      cases o with
      | insert pp va perm =>
        obtain ⟨hp, hrest⟩ := hl.1
        exact ⟨.of_start h hx (hall pp (by rwa [← hx.npages])), hrest⟩
      | alloc => exact trivial
      | free => exact hl.1
      | remove => exact hl.1
      | walk => exact hl.1
    refine ⟨hlegal, fun u hu => ?_⟩
    obtain ⟨u', es, m, hu', hxu, -, hiu, -⟩ := tlb_step hx h hlegal
    obtain rfl := Except.ok.inj (hu.symm.trans hu')
    exact ih hxu hiu (hl.2 u hu)

/-- **From boot on** every page off the free list may be inserted, and the TLB is coherent. -/
theorem memInitBoot_coherent {t : St} (h0 : s.nextfree = 0#32) (hl : s.pageFreeList = none) (hk : KernelEnd kend)
    (hn : s.npages.toNat ≤ 65536) (hrun : (memInitBoot kend).run s = .ok ((), t)) {C : Set (ℕ × ℕ × Word)} {os : List Op}
    (hc : TlbCoherent t C) (hlegal : LegalRun step (Legal fun s pp => pp < s.npages.toNat) t os) :
    (∃ u D, TlbRun t C os u D) ∧ ∀ u D, TlbRun t C os u D → TlbCoherent u D := by
  obtain ⟨-, -, -, -, hcons⟩ := memInitBoot_ok h0 hl hk hrun
  obtain ⟨l, hi⟩ := (hcons hn).inv
  have hi' : Inv (insertableAt t) (reservedRefs t) t l := hi.mono fun _ hp => Or.inl hp
  have hins := legal_insertable (fun pp hp => memInitBoot_insertable h0 hl hk hrun hp) (St.Fixed.refl t) hi' hlegal
  exact ⟨tlbRun_exists (St.Fixed.refl t) hi' hins, fun u D => tlbRun_coherent (St.Fixed.refl t) hi' hc hins⟩

end Booted

/-! ## A reserved page without a reference -/

/-- the small machine with one free page; the page of kern_pgdir has no reference -/
def oneFreeSt : St := { smallSt with pageFreeList := some 511 }

theorem oneFreeSt_consistent : Consistent oneFreeSt where
  npages_le := by decide
  self := by decide
  dir_reserved := by decide
  tbl_managed := fun d f hd hw hf => by
    rw [show tbl oneFreeSt.mem oneFreeSt.dir d = none from smallSt_onlySelf.tbl_none hd hw] at hf
    cases hf
  tbl_inj := fun d d' f hd _ hw _ hf => by
    rw [show tbl oneFreeSt.mem oneFreeSt.dir d = none from smallSt_onlySelf.tbl_none hd hw] at hf
    cases hf
  mapped := fun n e hn he => by
    have hslot := smallSt_onlySelf.no_slot (mem_pte.2 hn)
    rw [named, Option.map_eq_none_iff] at hslot
    rw [show xlat oneFreeSt.mem oneFreeSt.dir n = none from hslot] at he
    cases he
  classes := by
    have hchain : FreeList oneFreeSt [511] := ⟨rfl, rfl⟩
    refine ⟨[511], hchain, fun p hp => ?_, fun p _ => existsUnique_class (List.nodup_singleton _) ?_ (fun _ => rfl)
      fun _ => rfl⟩
    · rw [List.mem_singleton.1 hp]
      decide
    · have huses : RefPool.uses userSlots (named oneFreeSt.mem oneFreeSt.dir) p = 0 :=
        (RefPool.uses_eq_zero_iff p).2 fun σ hσ hp => by
          rw [show named oneFreeSt.mem oneFreeSt.dir σ = none from smallSt_onlySelf.no_slot hσ] at hp
          cases hp
      rw [← uses_eq, huses]
      rfl

/-- kern_pgdir's own page is mapped at 0x1000, -/
def dirMapped : St := (oneFreeSt.linkTable 280 0 511).insert 511 1 280 0x1000#32 pteW

/-- unmapped, which frees it, -/
def dirFreed : St := dirMapped.unmap 511 1 280 0x1000#32

/-- and cleared for the page table of 0x400000 -/
def dirTaken : St := dirFreed.linkTable 280 1 280

theorem step_dirMapped : step (.insert 280 0x1000#32 pteW) oneFreeSt = .ok dirMapped := by
  have hwalk : (pgdirWalk oneFreeSt.kernPgdir 0x1000#32 true).run oneFreeSt =
      .ok (some ⟨511, ptx 0x1000#32⟩, oneFreeSt.linkTable 280 0 511) :=
    run_walk_alloc (by decide) rfl rfl (by decide) (by decide)
  have hf : Found (oneFreeSt.linkTable 280 0 511) oneFreeSt.kernPgdir 0x1000#32 511 := ⟨by decide, by decide⟩
  refine step_ok ?_
  rw [Op.call, Prog.run_bind (run_get _), Prog.run_bind (run_insert hwalk hf fun hp => absurd hp (by decide))]
  rfl

theorem step_dirFreed : step (.remove 0x1000#32) dirMapped = .ok dirFreed := by
  have hf : Found dirMapped dirMapped.kernPgdir 0x1000#32 511 := ⟨by decide, by decide⟩
  refine step_ok ?_
  rw [Op.call, Prog.run_bind (run_get _)]
  exact run_remove_mapped hf (by decide) (by decide) fun _ => by decide

theorem step_dirTaken : step (.walk 0x400000#32 true) dirFreed = .ok dirTaken := by
  have hwalk : (pgdirWalk dirFreed.kernPgdir 0x400000#32 true).run dirFreed =
      .ok (some ⟨280, ptx 0x400000#32⟩, dirTaken) :=
    run_walk_alloc (by decide) rfl (by decide) (by decide) (by decide)
  refine step_ok ?_
  rw [Op.call, Prog.run_bind (run_get _), Prog.run_bind hwalk]
  rfl

/-- making a page table flushes nothing -/
theorem linkTable_keeps (dir dir' d p n : ℕ) : ∀ e ∈ [Ev.alloc p] ++ fillEvs p 0#32 nptentries ++ [.store dir' d (tableEntry p)],
    n ∉ (tlb dir).flush e := by
  intro e he
  rcases List.mem_append.1 he with he | he
  · rcases List.mem_append.1 he with he | he
    · rw [List.mem_singleton.1 he]
      exact Set.notMem_empty n
    · obtain ⟨i, -, rfl⟩ := List.mem_map.1 he
      exact Set.notMem_empty n
  · rw [List.mem_singleton.1 he]
    exact Set.notMem_empty n

/-- without the reference a reserved page is freed by its last page_remove: here kern_pgdir itself becomes a page table, and
the TLB keeps an entry of the UVPT window that is gone -/
theorem tlb_stale_window : ∃ t D, Consistent oneFreeSt ∧ TlbCoherent oneFreeSt {(957 * 1024 + 957, 280, 5#32)} ∧
    LegalRun step (Legal fun s pp => pp < s.npages.toNat) oneFreeSt
      [.insert 280 0x1000#32 pteW, .remove 0x1000#32, .walk 0x400000#32 true] ∧
    TlbRun oneFreeSt {(957 * 1024 + 957, 280, 5#32)}
      [.insert 280 0x1000#32 pteW, .remove 0x1000#32, .walk 0x400000#32 true] t D ∧ ¬ TlbCoherent t D := by
  have hin : (957 * 1024 + 957, 280, 5#32) ∈ ({(957 * 1024 + 957, 280, 5#32)} : Set (ℕ × ℕ × Word)) := Set.mem_singleton _
  have hkeep1 : ∀ e ∈ [Ev.alloc 511] ++ fillEvs 511 0#32 nptentries ++ [.store 280 0 (tableEntry 511)] ++
      [.store 511 1 (entry (page2pa 280) pteW)], 957 * 1024 + 957 ∉ (tlb 280).flush e := by
    intro e he
    rcases List.mem_append.1 he with he | he
    · exact linkTable_keeps _ _ _ _ _ e he
    · rw [List.mem_singleton.1 he]
      exact Set.notMem_empty _
  have hkeep2 : ∀ e ∈ [Ev.store 511 1 0#32, .invlpg 0x1000#32], 957 * 1024 + 957 ∉ (tlb 280).flush e := by
    intro e he
    rcases List.mem_cons.1 he with rfl | he
    · exact Set.notMem_empty _
    · rw [List.mem_singleton.1 he]
      exact fun hwin => absurd (Set.mem_singleton_iff.1 hwin) (by decide : 957 * 1024 + 957 ≠ pgnum 0x1000#32)
  -- the TLB loads nothing
  obtain ⟨m1, C1, hx1, hin1⟩ := (tlb 280).exec_keeps oneFreeSt.mem hin hkeep1
  obtain ⟨m2, C2, hx2, hin2⟩ := (tlb 280).exec_keeps dirMapped.mem hin1 hkeep2
  obtain ⟨m3, C3, hx3, hin3⟩ := (tlb 280).exec_keeps dirFreed.mem hin2 (linkTable_keeps 280 280 1 280 _)
  have hlog1 : dirMapped.log = oneFreeSt.log ++ ([.alloc 511] ++ fillEvs 511 0#32 nptentries ++
      [.store 280 0 (tableEntry 511)] ++ [.store 511 1 (entry (page2pa 280) pteW)]) := by
    have hnew : ¬ present ((oneFreeSt.linkTable 280 0 511).mem 511 1) := by decide
    rw [dirMapped, St.insert, if_neg hnew, St.emit_log, St.setRef_log, St.linkTable_log, List.append_assoc]
  have hlog2 : dirFreed.log = dirMapped.log ++ [.store 511 1 0#32, .invlpg 0x1000#32] := St.unmap_log ..
  refine ⟨dirTaken, C3, oneFreeSt_consistent, ?_, ?_, ?_, ?_⟩
  · intro a b hab
    rw [Set.mem_singleton_iff, Prod.mk.injEq] at hab
    obtain ⟨rfl, rfl⟩ := hab
    decide
  · refine ⟨⟨by decide, ?_, by decide, by decide, by decide⟩, fun u hu => ?_⟩
    · rw [onFreeList_iff (show FreeList oneFreeSt [511] from ⟨rfl, rfl⟩)]
      decide
    · obtain rfl := Except.ok.inj (step_dirMapped.symm.trans hu)
      refine ⟨(by decide : 0x1000#32 < utop), fun v _ => ⟨(by decide : 0x400000#32 < utop), fun _ _ => trivial⟩⟩
  · exact .cons step_dirMapped hlog1 hx1 (.cons step_dirFreed hlog2 hx2 (.cons step_dirTaken (St.linkTable_log ..) hx3 (.nil ..)))
  · intro hc
    have hlook : (tlb 280).look dirTaken.mem (957 * 1024 + 957) = none := by decide
    have hstale := hc _ _ hin3
    rw [show dirTaken.dir = 280 by decide, hlook] at hstale
    cases hstale

end Jos
