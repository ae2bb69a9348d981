/-
The operations on kern_pgdir keep the invariant.

`Op` lists the calls a client makes on kern_pgdir after boot. The results are stated for an arbitrary set `own` of
insertable pages that are managed or permanently referenced:
- `walk_cases`: the three outcomes of pgdir_walk;
- `insert_cases`: page_insert either fails for lack of a page table and changes nothing, or ends with the new entry
  stored, in a state of the invariant;
- `remove_cases`: page_remove;
- `step_inv`: no legal operation stops at a fault, and each keeps the invariant.
-/
import Jos.Pmap.Invariant
import Jos.Lib.Run

namespace Jos

open Jos.Lib

theorem pgnum_utop : pgnum utop = 977920 := by decide

theorem pgnum_lt_utop {va : Word} (h : va < utop) : pgnum va < 977920 := by
  have h1 : va.toNat < utop.toNat := h
  have h2 : utop.toNat = 4005560320 := by decide
  rw [pgnum_eq]
  omega

/-! ## Outcomes -/

/-- the pages that may be inserted: below npages, and managed or referenced for good -/
structure Owns (s : St) (own : ℕ → Prop) (extra : ℕ → ℕ) : Prop where
  of_managed : ∀ p, Managed s p → own p
  lt : ∀ p, own p → p < s.npages.toNat
  cover : ∀ p, own p → Managed s p ∨ 0 < extra p

theorem Owns.fixed {s t : St} {own : ℕ → Prop} {extra : ℕ → ℕ} (h : Owns s own extra) (hx : St.Fixed s t) :
    Owns t own extra :=
  ⟨by rw [managed_fixed hx]; exact h.of_managed, by rw [hx.npages]; exact h.lt,
    by rw [managed_fixed hx]; exact h.cover⟩

section Outcomes

variable {own : ℕ → Prop} {extra : ℕ → ℕ} {s : St} {l : List ℕ} {va perm : Word} {pp : ℕ}

/-- what pgdir_walk(kern_pgdir, va, create) leaves behind when it returns an entry of table f -/
inductive Walked (s : St) (l : List ℕ) (va : Word) : St → List ℕ → ℕ → Prop where
  | found {f : ℕ} (h : tbl s.mem s.dir (pdx va) = some f) : Walked s l va s l f
  | made {p : ℕ} {m : List ℕ} (h : tbl s.mem s.dir (pdx va) = none) (hl : l = p :: m) :
    Walked s l va (s.linkTable s.dir (pdx va) p) m p

theorem Tables.walk_cases (h : Tables s l) (hw : pdx va ≠ 957) (create : Bool) :
    (tbl s.mem s.dir (pdx va) = none ∧ (create = false ∨ l = []) ∧
      (pgdirWalk s.kernPgdir va create).run s = .ok (none, s)) ∨
    ∃ t m f, Walked s l va t m f ∧ (create = false → t = s) ∧
      (pgdirWalk s.kernPgdir va create).run s = .ok (some ⟨f, ptx va⟩, t) := by
  cases hf : tbl s.mem s.dir (pdx va) with
  | some f =>
    have hlt := h.tbl_lt _ f (pdx_lt va) hw hf
    have hfound : Found s s.kernPgdir va f := ⟨hf, hlt⟩
    exact Or.inr ⟨s, l, f, .found hf, fun _ => rfl, hfound.walk create⟩
  | none =>
    have hp : ¬ present (s.mem s.dir (pdx va)) := tbl_eq_none.1 hf
    cases hc : create with
    | false => exact Or.inl ⟨rfl, Or.inl rfl, run_walk_absent _ hp (Or.inl rfl)⟩
    | true =>
      cases l with
      | nil => exact Or.inl ⟨rfl, Or.inr rfl, run_walk_absent _ hp (Or.inr (chain_nil.1 h.chain))⟩
      | cons p m =>
        exact Or.inr ⟨_, m, p, .made hf rfl, by simp, run_walk_alloc hp rfl h.chain.1 (free_head_lt h)
          (h.free_lt p List.mem_cons_self)⟩

theorem Walked.fixed {t : St} {m : List ℕ} {f : ℕ} (h : Walked s l va t m f) : St.Fixed s t := by
  cases h with
  | found => exact St.Fixed.refl s
  | made => exact s.fixed_linkTable ..

theorem Walked.inv {t : St} {m : List ℕ} {f : ℕ} (h : Walked s l va t m f) (hi : Inv own extra s l)
    (ho : Owns s own extra) (hw : pdx va ≠ 957) : Inv own extra t m := by
  cases h with
  | found => exact hi
  | made hn hl =>
    subst hl
    exact hi.link (pdx_lt va) hw hn (ho.of_managed _ (hi.pool.free_pool _ List.mem_cons_self))

theorem Walked.tbl {t : St} {m : List ℕ} {f : ℕ} (h : Walked s l va t m f) (ht : Tables s l) :
    tbl t.mem t.dir (pdx va) = some f := by
  cases h with
  | found hf => exact hf
  | made hn hl =>
    subst hl
    rw [(s.fixed_linkTable ..).dir, St.linkTable_mem, tbl_link ht, if_pos rfl]

theorem Walked.subset {t : St} {m : List ℕ} {f : ℕ} (h : Walked s l va t m f) : ∀ q ∈ m, q ∈ l := by
  cases h with
  | found => exact fun _ hq => hq
  | made _ hl => exact fun q hq => hl ▸ List.mem_cons_of_mem _ hq

theorem Walked.refs {t : St} {m : List ℕ} {f : ℕ} (h : Walked s l va t m f) (hp : pp ∉ l) :
    t.ref pp = s.ref pp := by
  cases h with
  | found => rfl
  | made _ hl =>
    have : pp ≠ f := fun e => hp (hl ▸ e ▸ List.mem_cons_self)
    simp [this]

/-- pgdir_walk changes no translation outside the UVPT window -/
theorem Walked.xlat {t : St} {m : List ℕ} {f : ℕ} (h : Walked s l va t m f) (ht : Tables s l) {n : ℕ}
    (hn : n < 1048576) (hw : n / 1024 ≠ 957) : xlat t.mem t.dir n = xlat s.mem s.dir n := by
  cases h with
  | found => rfl
  | made ha hl =>
    subst hl
    rw [(s.fixed_linkTable ..).dir, St.linkTable_mem, xlat_link ht ha hn hw]

theorem Mem.set_set (m : Mem) (f i : ℕ) (v w : Word) : (m.set f i v).set f i w = m.set f i w := by
  funext f' i'
  unfold Mem.set
  split_ifs <;> rfl

@[simp] theorem St.insert_mem (t : St) (f i pp : ℕ) (va perm : Word) :
    (t.insert f i pp va perm).mem = t.mem.set f i (entry (page2pa pp) perm) := by
  unfold St.insert
  split_ifs
  · simp [Ev.mem, Mem.set_set]
  · simp [Ev.mem]

theorem St.fixed_insert (t : St) (f i pp : ℕ) (va perm : Word) : Fixed t (t.insert f i pp va perm) := by
  unfold St.insert
  split_ifs
  · exact ((fixed_setRef ..).trans (fixed_unmap ..)).trans (fixed_emit ..)
  · exact (fixed_setRef ..).trans (fixed_emit ..)

/-- page_insert from a state whose table for va exists: the reference is taken, an old page removed, the entry stored -/
theorem Inv.insert (h : Inv own extra s l) (ho : Owns s own extra) {n f : ℕ} (hn : n < 977920)
    (hf : Jos.tbl s.mem s.dir (n / 1024) = some f) (hown : own pp) (hp : pp ∉ l) (hr : Jos.refs s pp < 65535)
    (hperm : perm.toNat < 4096) : ∃ m, Inv own extra (s.insert f (n % 1024) pp va perm) m := by
  have hT := h.tables
  have hlt : pp < 1048576 := by
    have := ho.lt pp hown
    have := h.npages_le
    omega
  have hent : pgnum (entry (page2pa pp) perm) = pp := by
    rw [pgnum_entry (page2pa_aligned pp) hperm, pgnum_page2pa hlt]
  have h1 := h.incref hp hr
  have hx : (Function.update extra pp (extra pp + 1)) pp = extra pp + 1 := Function.update_self ..
  have hx' : ∀ q, q ≠ pp → extra q = Function.update extra pp (extra pp + 1) q :=
    fun q hq => (Function.update_of_ne hq _ _).symm
  -- the state between the first and the last step holds one reference to pp outside the slots
  have hf1 : Jos.tbl (s.setRef pp (s.ref pp + 1#16)).mem (s.setRef pp (s.ref pp + 1#16)).dir (n / 1024) = some f := hf
  unfold St.insert
  split_ifs with hpr
  · have hslot : named s.mem s.dir (.pte n) = some (pgnum (s.mem f (n % 1024))) := by
      simp [named, xlat_of_tbl hf, hpr]
    have hcov : Managed (s.setRef pp (s.ref pp + 1#16)) (pgnum (s.mem f (n % 1024))) ∨
        0 < Function.update extra pp (extra pp + 1) (pgnum (s.mem f (n % 1024))) := by
      rw [managed_fixed (St.fixed_setRef ..)]
      refine (ho.cover _ (h.pool.slot_own _ (mem_pte.2 hn) _ hslot)).imp_right ?_
      intro h0
      by_cases hq : pgnum (s.mem f (n % 1024)) = pp
      · rw [hq, hx]; omega
      · rw [Function.update_of_ne hq]; exact h0
    have h2 := h1.unmap hn hf1 va hpr rfl hcov
    simp only [St.setRef_mem] at h2
    have hd : ((s.setRef pp (s.ref pp + 1#16)).unmap f (n % 1024) (pgnum (s.mem f (n % 1024))) va).dir = s.dir :=
      ((St.fixed_setRef ..).trans (St.fixed_unmap ..)).dir
    refine ⟨_, h2.map hn ?_ ?_ (present_entry _ _) hent hown hx hx'⟩
    · rw [hd, St.unmap_mem, St.setRef_mem, tbl_store hT (by omega) (by omega) hf]
      exact hf
    · rw [hd, St.unmap_mem, St.setRef_mem, xlat_store hT (by omega) (by omega) hf _ (by omega), if_pos rfl]
      exact if_neg not_present_zero
  · have hn1 : Jos.xlat (s.setRef pp (s.ref pp + 1#16)).mem (s.setRef pp (s.ref pp + 1#16)).dir n = none := by
      rw [xlat_of_tbl hf1]
      exact if_neg hpr
    exact ⟨_, h1.map hn hf1 hn1 (present_entry _ _) hent hown hx hx'⟩

/-- re-inserting a page where it is mapped keeps its references, whatever pp_ref is -/
theorem St.insert_same {t : St} {f i : ℕ} (va perm : Word) (hp : present (t.mem f i)) (hq : pgnum (t.mem f i) = pp)
    (hr : t.ref pp ≠ 0#16) : (t.insert f i pp va perm).ref = t.ref ∧ (t.insert f i pp va perm).link = t.link ∧
      (t.insert f i pp va perm).pageFreeList = t.pageFreeList := by
  have h1 : (t.setRef pp (t.ref pp + 1#16)).ref pp ≠ 1#16 := by
    rw [St.setRef_ref, Function.update_self]; bv_omega
  simp only [St.insert, St.unmap, St.decref, hp, hq, h1, if_true, if_false]
  refine ⟨?_, by simp, by simp⟩
  simp only [St.emit_ref, St.setRef_ref, Function.update_self, Function.update_idem, BitVec.add_sub_cancel,
    Function.update_eq_self]

theorem Inv.reinsert (h : Inv own extra s l) (ho : Owns s own extra) {n f : ℕ} (hn : n < 977920)
    (hf : Jos.tbl s.mem s.dir (n / 1024) = some f) (hpr : present (s.mem f (n % 1024)))
    (hq : pgnum (s.mem f (n % 1024)) = pp) (hperm : perm.toNat < 4096) :
    Inv own extra (s.insert f (n % 1024) pp va perm) l := by
  have hslot : named s.mem s.dir (.pte n) = some pp := by
    simp [named, xlat_of_tbl hf, hpr, hq]
  have hlt : pp < 1048576 := by
    have := ho.lt pp (h.pool.slot_own _ (mem_pte.2 hn) _ hslot)
    have := h.npages_le
    omega
  have hr0 : s.ref pp ≠ 0#16 := fun e => by
    have h1 := h.pool.ref_eq pp
    have h2 := RefPool.uses_pos_of_mem (mem_pte.2 hn) hslot
    unfold Jos.refs at h1
    rw [e] at h1
    simp at h1
    omega
  obtain ⟨href, hlink, hfree⟩ := St.insert_same va perm hpr hq hr0
  obtain ⟨h1, h2⟩ := named_store hn hf h (entry (page2pa pp) perm)
  rw [if_pos (present_entry _ _), pgnum_entry (page2pa_aligned pp) hperm, pgnum_page2pa hlt] at h1
  have hsame : ∀ σ ∈ userSlots,
      named (s.mem.set f (n % 1024) (entry (page2pa pp) perm)) s.dir σ = named s.mem s.dir σ := by
    intro σ hσ
    by_cases he : σ = .pte n
    · rw [he, h1, hslot]
    · exact h2 σ hσ he
  have hrefs : Jos.refs (s.insert f (n % 1024) pp va perm) = Jos.refs s := by
    unfold Jos.refs; rw [href]
  refine h.build_store hn hf (s.fixed_insert ..) (s.insert_mem ..) (h.chain.congr hfree fun p _ => by rw [hlink]) ?_ ?_
  · rw [hrefs]
    exact h.pool.congr_slot hsame
  · rw [hlink]
    exact h.link_none

/-- the page an entry below UTOP names is an existing page, off the list -/
theorem Inv.mapped (h : Inv own extra s l) (ho : Owns s own extra) {n f : ℕ} (hn : n < 977920)
    (hf : Jos.tbl s.mem s.dir (n / 1024) = some f) (hp : present (s.mem f (n % 1024))) :
    pgnum (s.mem f (n % 1024)) < s.npages.toNat ∧ pgnum (s.mem f (n % 1024)) ∉ l ∧
      own (pgnum (s.mem f (n % 1024))) := by
  have hslot : named s.mem s.dir (.pte n) = some (pgnum (s.mem f (n % 1024))) := by
    simp [named, xlat_of_tbl hf, hp]
  have hown := h.pool.slot_own _ (mem_pte.2 hn) _ hslot
  exact ⟨ho.lt _ hown, h.pool.slot_not_free (mem_pte.2 hn) hslot, hown⟩

/-- a page whose last reference goes away has no link -/
theorem Inv.last_link (h : Inv own extra s l) (ho : Owns s own extra) {n f q : ℕ} (hn : n < 977920)
    (hf : Jos.tbl s.mem s.dir (n / 1024) = some f) (hp : present (s.mem f (n % 1024)))
    (hq : pgnum (s.mem f (n % 1024)) = q) (hr : Jos.refs s q = 1) : s.link q = none := by
  subst hq
  obtain ⟨-, hl, hown⟩ := h.mapped ho hn hf hp
  have hslot : named s.mem s.dir (.pte n) = some (pgnum (s.mem f (n % 1024))) := by
    simp [named, xlat_of_tbl hf, hp]
  have h1 := h.pool.ref_eq (pgnum (s.mem f (n % 1024)))
  have h2 := RefPool.uses_pos_of_mem (mem_pte.2 hn) hslot
  exact h.link_none _ ((ho.cover _ hown).resolve_right (by omega)) hl

/-- page_insert returns -E_NO_MEM and has done nothing, or returns 0 -/
theorem insert_run (h : Inv own extra s l) (ho : Owns s own extra) (hva : pgnum va < 977920) (hp : pp ∉ l)
    (perm : Word) :
    (Jos.tbl s.mem s.dir (pdx va) = none ∧ l = [] ∧ (pageInsert s.kernPgdir pp va perm).run s = .ok (-eNoMem, s)) ∨
    ∃ t m f, Walked s l va t m f ∧ Inv own extra t m ∧
      (pageInsert s.kernPgdir pp va perm).run s = .ok (0, t.insert f (ptx va) pp va perm) := by
  have hw : pdx va ≠ 957 := by rw [pdx_pgnum]; omega
  rcases h.tables.walk_cases hw true with ⟨hn, hl, -⟩ | ⟨t, m, f, hwk, -, hrun⟩
  · have hl : l = [] := by simpa using hl
    subst hl
    exact Or.inl ⟨hn, rfl, run_insert_noMem hn (chain_nil.1 h.chain)⟩
  · have hi := hwk.inv h ho hw
    have hx := hwk.fixed
    have hot := ho.fixed hx
    have htbl := hwk.tbl h.tables
    have hf : Jos.tbl t.mem t.dir (pgnum va / 1024) = some f := by rw [← pdx_pgnum]; exact htbl
    have hlt : f < t.npages.toNat := hi.tables.tbl_lt _ f (pdx_lt va) hw htbl
    refine Or.inr ⟨t, m, f, hwk, hi, run_insert hrun ⟨?_, hlt⟩ fun hpr => ?_⟩
    · rw [← hx.kernPgdir]
      exact htbl
    · rw [ptx_pgnum] at hpr ⊢
      refine ⟨(hi.mapped hot hva hf hpr).1, fun h1 => ?_⟩
      by_cases hq : pgnum (t.mem f (pgnum va % 1024)) = pp
      · -- the inserted page was mapped at va already, so pp_ref was not 0
        rw [hq, St.setRef_ref, Function.update_self] at h1
        have h2 : Jos.refs t pp = 0 := by
          unfold Jos.refs
          bv_omega
        have h3 := hi.pool.ref_eq pp
        have hslot : named t.mem t.dir (.pte (pgnum va)) = some pp := by
          simp [named, xlat_of_tbl hf, hpr, hq]
        have h4 := RefPool.uses_pos_of_mem (mem_pte.2 hva) hslot
        omega
      · refine hi.last_link hot hva hf hpr rfl ?_
        rw [St.setRef_ref, Function.update_of_ne hq] at h1
        unfold Jos.refs
        rw [h1]; rfl

/-- page_insert at va does not wrap pp_ref: it is below its limit, or the page is mapped at va already -/
def NoWrap (s : St) (pp : ℕ) (va : Word) : Prop :=
  refs s pp < 65535 ∨ named s.mem s.dir (.pte (pgnum va)) = some pp

theorem insert_cases (h : Inv own extra s l) (ho : Owns s own extra) (hva : pgnum va < 977920) (hown : own pp)
    (hp : pp ∉ l) (hr : NoWrap s pp va) (hperm : perm.toNat < 4096) :
    (Jos.tbl s.mem s.dir (pdx va) = none ∧ l = [] ∧ (pageInsert s.kernPgdir pp va perm).run s = .ok (-eNoMem, s)) ∨
    ∃ t m f m', Walked s l va t m f ∧ Inv own extra t m ∧
      (pageInsert s.kernPgdir pp va perm).run s = .ok (0, t.insert f (ptx va) pp va perm) ∧
      Inv own extra (t.insert f (ptx va) pp va perm) m' := by
  have hw : pdx va ≠ 957 := by rw [pdx_pgnum]; omega
  rcases insert_run h ho hva hp perm with hno | ⟨t, m, f, hwk, hi, hrun⟩
  · exact Or.inl hno
  · have hot := ho.fixed hwk.fixed
    have hf : Jos.tbl t.mem t.dir (pgnum va / 1024) = some f := by rw [← pdx_pgnum]; exact hwk.tbl h.tables
    have hpm : pp ∉ m := fun hm => hp (hwk.subset pp hm)
    have hkeep : ∃ m', Inv own extra (t.insert f (pgnum va % 1024) pp va perm) m' := by
      rcases hr with hr | hr
      · exact hi.insert hot hva hf hown hpm (by unfold Jos.refs; rw [hwk.refs hp]; exact hr) hperm
      · -- va is mapped, so pgdir_walk found its table
        obtain ⟨e, he, hpe⟩ := Option.map_eq_some_iff.1 hr
        have hsame := hwk.xlat h.tables (n := pgnum va) (by omega) (by omega)
        rw [he, xlat_of_tbl hf] at hsame
        split_ifs at hsame with hpr
        exact ⟨m, hi.reinsert hot hva hf hpr (by rw [Option.some.inj hsame, hpe]) hperm⟩
    rw [← ptx_pgnum] at hkeep
    obtain ⟨m', hm'⟩ := hkeep
    exact Or.inr ⟨t, m, f, m', hwk, hi, hrun, hm'⟩

theorem remove_cases (h : Inv own extra s l) (ho : Owns s own extra) (hva : pgnum va < 977920) :
    (xlat s.mem s.dir (pgnum va) = none ∧ (pageRemove s.kernPgdir va).run s = .ok ((), s)) ∨
    ∃ f q m, tbl s.mem s.dir (pdx va) = some f ∧ present (s.mem f (ptx va)) ∧
      (pageRemove s.kernPgdir va).run s = .ok ((), s.unmap f (ptx va) q va) ∧
      Inv own extra (s.unmap f (ptx va) q va) m := by
  have hw : pdx va ≠ 957 := by rw [pdx_pgnum]; omega
  cases htbl : Jos.tbl s.mem s.dir (pdx va) with
  | none => exact Or.inl ⟨xlat_none (by rwa [← pdx_pgnum]), run_remove_absent htbl⟩
  | some f =>
    have hf : Jos.tbl s.mem s.dir (pgnum va / 1024) = some f := by rw [← pdx_pgnum]; exact htbl
    have hfound : Found s s.kernPgdir va f := ⟨htbl, h.tables.tbl_lt _ f (pdx_lt va) hw htbl⟩
    by_cases hp : present (s.mem f (ptx va))
    · have hp' := hp
      rw [ptx_pgnum] at hp'
      obtain ⟨hq, -, hown⟩ := h.mapped ho hva hf hp'
      have hun := h.unmap hva hf va hp' rfl (ho.cover _ hown)
      rw [← ptx_pgnum] at hun hq
      refine Or.inr ⟨f, _, _, rfl, hp, run_remove_mapped hfound hp hq fun h1 => ?_, hun⟩
      exact h.last_link ho hva hf hp' (by rw [ptx_pgnum]) (by unfold Jos.refs; rw [h1]; rfl)
    · refine Or.inl ⟨?_, run_remove_unmapped hfound hp⟩
      rw [xlat_of_tbl hf, ← ptx_pgnum, if_neg hp]

end Outcomes

/-! ## Operations -/

/-- the calls on kern_pgdir -/
inductive Op where
  | alloc (allocFlags : Word)
  | free (pp : ℕ)
  | insert (pp : ℕ) (va perm : Word)
  | remove (va : Word)
  | walk (va : Word) (create : Bool)
deriving DecidableEq, Repr

def Op.call : Op → K Unit
  | .alloc allocFlags => do let _ ← pageAlloc allocFlags
  | .free pp => pageFree pp
  | .insert pp va perm => do let _ ← pageInsert (← get).kernPgdir pp va perm
  | .remove va => do pageRemove (← get).kernPgdir va
  | .walk va create => do let _ ← pgdirWalk (← get).kernPgdir va create

def step (o : Op) (s : St) : Except Fault St := (o.call.run s).map Prod.snd

/-- p is on the free list -/
def OnFreeList (s : St) (p : ℕ) : Prop := ∃ l, FreeList s l ∧ p ∈ l

theorem onFreeList_iff {s : St} {l : List ℕ} (h : FreeList s l) (p : ℕ) : OnFreeList s p ↔ p ∈ l :=
  ⟨fun ⟨_, hm, hp⟩ => Chain.unique hm h ▸ hp, fun hp => ⟨l, h, hp⟩⟩

/-- page_free of a held page, page_insert of a page of `ins` that is off the list, all addresses below UTOP -/
def Legal (ins : St → ℕ → Prop) (s : St) : Op → Prop
  | .alloc _ => True
  | .free pp => Managed s pp ∧ ¬ OnFreeList s pp ∧ s.ref pp = 0#16
  | .insert pp va perm => ins s pp ∧ ¬ OnFreeList s pp ∧ refs s pp < 65535 ∧ va < utop ∧ perm.toNat < 4096
  | .remove va => va < utop
  | .walk va _ => va < utop

section Step

variable {own : ℕ → Prop} {extra : ℕ → ℕ} {s : St} {l : List ℕ}

theorem step_ok {o : Op} {t : St} (h : o.call.run s = .ok ((), t)) : step o s = .ok t := by
  rw [step, h]; rfl

theorem Inv.fill (h : Inv own extra s l) {f k : ℕ} {v : Word} (hd : f ≠ s.dir)
    (hf : ∀ d, d < 1024 → d ≠ 957 → tbl s.mem s.dir d ≠ some f) : Inv own extra (s.fill f k v) l := by
  have htbl : ∀ d, Jos.tbl (s.mem.fill f k v) s.dir d = Jos.tbl s.mem s.dir d := fun d => by
    simp [Jos.tbl, Mem.fill, hd.symm]
  have hnamed : ∀ σ ∈ userSlots, named (s.mem.fill f k v) s.dir σ = named s.mem s.dir σ := by
    intro σ hσ
    cases σ with
    | pde d => exact htbl d
    | pte n =>
      have := mem_pte.1 hσ
      simp only [named]
      rw [xlat_congr (m := s.mem) (by simp [Mem.fill, hd.symm]) fun g hg => ?_]
      have : g ≠ f := fun e => hf _ (by omega) (by omega) (e ▸ hg)
      simp [Mem.fill, this]
  refine h.build (St.fixed_fill ..) (h.chain.congr rfl (by simp)) ?_ ?_ ?_ (h.pool.congr_slot hnamed) h.link_none
  · simpa [Mem.fill, hd.symm] using h.self
  · simp only [St.fill_mem, htbl]; exact h.tbl_managed
  · simp only [St.fill_mem, htbl]; exact h.tbl_inj

/-- page_alloc hands out the first page, or none -/
theorem alloc_cases (h : Inv own extra s l) (fl : Word) :
    (l = [] ∧ (pageAlloc fl).run s = .ok (none, s)) ∨
    ∃ p m t, l = p :: m ∧ (pageAlloc fl).run s = .ok (some p, t) ∧ St.Fixed s t ∧ Inv own extra t m ∧
      (t.mem = s.mem ∧ t.log = s.log ++ [.alloc p] ∨
        t.mem = s.mem.fill p nptentries 0#32 ∧ t.log = s.log ++ ([.alloc p] ++ fillEvs p 0#32 nptentries)) := by
  cases l with
  | nil => exact Or.inl ⟨rfl, run_pageAlloc_none (chain_nil.1 h.chain)⟩
  | cons p m =>
    have hT := h.tables
    by_cases hz : fl &&& allocZero = 0#32
    · exact Or.inr ⟨p, m, _, rfl, run_pageAlloc_some h.chain.1 hz, s.fixed_pop p, h.pop, Or.inl ⟨rfl, rfl⟩⟩
    · refine Or.inr ⟨p, m, _, rfl, run_pageAlloc_zero fl h.chain.1 hz (free_head_lt hT)
        (hT.free_lt p List.mem_cons_self), (s.fixed_pop p).trans (St.fixed_fill ..),
        h.pop.fill (free_head_ne_dir hT).symm fun d hd hw hf => ?_, Or.inr ⟨rfl, by simp⟩⟩
      exact h.tbl_not_free hd hw hf List.mem_cons_self

/-- **One step.** A legal operation does not stop at a fault and keeps the invariant. -/
theorem step_inv (h : Inv own extra s l) (ho : Owns s own extra) {ins : St → ℕ → Prop}
    (hins : ∀ p, ins s p → own p) (o : Op) (hl : Legal ins s o) :
    ∃ t m, step o s = .ok t ∧ St.Fixed s t ∧ Inv own extra t m := by
  cases o with
  | alloc fl =>
    rcases alloc_cases h fl with ⟨-, hrun⟩ | ⟨p, m, t, -, hrun, hx, hi, -⟩
    · exact ⟨s, l, step_ok (by rw [Op.call, Prog.run_bind hrun]; rfl), St.Fixed.refl s, h⟩
    · exact ⟨t, m, step_ok (by rw [Op.call, Prog.run_bind hrun]; rfl), hx, hi⟩
  | free pp =>
    obtain ⟨hm, hf, hr⟩ := hl
    rw [onFreeList_iff h.chain] at hf
    exact ⟨_, _, step_ok (run_pageFree hr (h.link_none pp hm hf)), s.fixed_push pp, h.push hm hf hr⟩
  | insert pp va perm =>
    obtain ⟨hp, hf, hr, hva, hperm⟩ := hl
    rw [onFreeList_iff h.chain] at hf
    rcases insert_cases h ho (pgnum_lt_utop hva) (hins pp hp) hf (Or.inl hr) hperm with
      ⟨-, -, hrun⟩ | ⟨t, m, f, m', hwk, -, hrun, hi⟩
    · exact ⟨s, l, step_ok (by rw [Op.call, Prog.run_bind (run_get s), Prog.run_bind hrun]; rfl), St.Fixed.refl s, h⟩
    · exact ⟨_, m', step_ok (by rw [Op.call, Prog.run_bind (run_get s), Prog.run_bind hrun]; rfl),
        hwk.fixed.trans (St.fixed_insert ..), hi⟩
  | remove va =>
    rcases remove_cases h ho (pgnum_lt_utop hl) with ⟨-, hrun⟩ | ⟨f, q, m, -, -, hrun, hi⟩
    · exact ⟨s, l, step_ok (by rw [Op.call, Prog.run_bind (run_get s), hrun]), St.Fixed.refl s, h⟩
    · exact ⟨_, m, step_ok (by rw [Op.call, Prog.run_bind (run_get s), hrun]), s.fixed_unmap .., hi⟩
  | walk va create =>
    have hw : pdx va ≠ 957 := by
      have := pgnum_lt_utop hl
      rw [pdx_pgnum]; omega
    rcases h.tables.walk_cases hw create with ⟨-, -, hrun⟩ | ⟨t, m, f, hwk, -, hrun⟩
    · exact ⟨s, l, step_ok (by rw [Op.call, Prog.run_bind (run_get s), Prog.run_bind hrun]; rfl), St.Fixed.refl s, h⟩
    · exact ⟨t, m, step_ok (by rw [Op.call, Prog.run_bind (run_get s), Prog.run_bind hrun]; rfl), hwk.fixed, hwk.inv h ho hw⟩

end Step

end Jos
