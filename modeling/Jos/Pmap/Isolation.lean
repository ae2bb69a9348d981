/-
User isolation: what the page tables let user mode do from UTOP on.

The hardware grants user mode a page if PTE_U is set in both entries of the walk, and writes if PTE_W is too
(`UserRead`, `UserWrite`). pgdir_walk makes every directory entry with PTE_U and PTE_W, so above UTOP it is the page table
entries that protect the kernel, and in the window at UVPT the self entry, which has no PTE_W. Results:
- `memInitInstall_iff`: mem_init from check_page_alloc to its end returns exactly when the list that is left passes
  check_page_free_list(0), in a state where `Isolated` holds;
- `Isolated.step`: a legal operation changes no translation from UTOP on outside the window, and keeps it;
- `user_isolation`: this in every state that a legal run after mem_init reaches.
-/
import Jos.Pmap.Installed
import Jos.Pmap.MemInit

namespace Jos

open Jos.Lib

/-! ## mem_init to its end -/

def St.setCr3 (s : St) (v : Word) : St := { s with cr3 := v }

/-- inc/x86.h: lcr3 also drops every translation of the TLB -/
def lcr3 (v : Word) : K Unit := do
  modify fun s => s.setCr3 v
  issue (.lcr3 v)

/-- mem_init behind check_page_free_list(1) -/
def memInitInstall (kend bootstack : Word) : K Unit := do
  memInitVm bootstack
  lcr3 (← paddr (← get).kernPgdir)
  checkPageFreeList kend false
  checkPageInstalledPgdir

def memInit (cmos : ℕ → BitVec 8) (kend bootstack : Word) : K Unit := do
  i386DetectMemory cmos
  memInitChecked kend
  memInitInstall kend bootstack

/-! ## Page conservation during mem_init -/

section Conservation

variable {own : ℕ → Prop} {extra : ℕ → ℕ} {s t : St} {l l' k m : List ℕ}

/-- free pages are written and linked in another order -/
theorem Inv.quiet (h : Inv own extra s l) (hq : Quiet k s t) (hk : ∀ q ∈ k, q ∈ l) (hc : FreeList t l')
    (hl : ∀ q, q ∈ l' ↔ q ∈ l) : Inv own extra t l' := by
  have hT := h.tables
  have hmem : ∀ f i, f ∉ l → t.mem f i = s.mem f i := fun f i hf => hq.mem f i fun hfk => hf (hk f hfk)
  have hdir : ∀ d, t.mem s.dir d = s.mem s.dir d := fun d => hmem _ d hT.dir_free
  have htbl : ∀ d, Jos.tbl t.mem s.dir d = Jos.tbl s.mem s.dir d := fun d => by
    unfold Jos.tbl
    rw [hdir]
  have hnamed : ∀ σ ∈ userSlots, named t.mem s.dir σ = named s.mem s.dir σ := by
    intro σ hσ
    cases σ with
    | pde d => exact htbl d
    | pte n =>
      have hn := mem_pte.1 hσ
      simp only [named]
      rw [hT.xlat_off_free hmem (by omega)]
  have hrefs : refs t = refs s := by
    unfold refs
    rw [hq.ref]
  refine h.build hq.toFixed hc ?_ ?_ ?_ ?_ fun p hp hpl => ?_
  · rw [hdir]
    exact h.self
  · simp only [htbl]
    exact h.tbl_managed
  · simp only [htbl]
    exact h.tbl_inj
  · rw [hrefs]
    exact (h.pool.congr_slot hnamed).congr_free (Chain.nodup hc) hl
  · have hpl' : p ∉ l := fun hc => hpl ((hl p).2 hc)
    rw [hq.link p fun hpk => hpl' (hk p hpk)]
    exact h.link_none p hp hpl'

/-- an entry from UTOP on is stored: no slot names its page -/
theorem Inv.storeKernel (h : Inv own extra s l) {n f : ℕ} (hn : 977920 ≤ n) (hn' : n < 1048576) (hw : n / 1024 ≠ 957)
    (hf : tbl s.mem s.dir (n / 1024) = some f) (v : Word) : Inv own extra (s.emit (.store f (n % 1024) v)) l := by
  have hT := h.tables
  have hne : s.dir ≠ f := (hT.tbl_dir _ _ (by omega) hw hf).symm
  have htbl := tbl_store hT hn' hw hf v
  have hnamed : ∀ σ ∈ userSlots, named (s.mem.set f (n % 1024) v) s.dir σ = named s.mem s.dir σ := by
    intro σ hσ
    cases σ with
    | pde d => exact htbl d
    | pte i =>
      have hi := mem_pte.1 hσ
      simp only [named]
      rw [xlat_store hT hn' hw hf v (by omega), if_neg (by omega)]
  refine h.build (St.fixed_emit ..) (h.chain.congr rfl (by simp)) ?_ ?_ ?_ (h.pool.congr_slot hnamed) (by
    simpa using h.link_none)
  · simpa [Ev.mem, Mem.set, hne] using h.self
  · simp only [St.emit_mem, Ev.mem, htbl]
    exact h.tbl_managed
  · simp only [St.emit_mem, Ev.mem, htbl]
    exact h.tbl_inj

theorem Round.inv {va e : Word} (h : Round s l va e t m) (hi : Inv own extra s l) (ho : Owns s own extra)
    (hn : 977920 ≤ pgnum va) (hw : pdx va ≠ 957) : Inv own extra t m := by
  obtain ⟨hwk⟩ := h
  have hf := hwk.tbl hi.tables
  rw [pdx_pgnum] at hf
  rw [ptx_pgnum]
  exact (hwk.inv hi ho hw).storeKernel hn (pgnum_lt va) (by rwa [← pdx_pgnum]) hf e

theorem Rounds.inv {rs : List (Word × Word)} (h : Rounds s l rs t m) (hi : Inv own extra s l) (ho : Owns s own extra)
    (hrs : ∀ r ∈ rs, 977920 ≤ pgnum r.1 ∧ pdx r.1 ≠ 957) : Inv own extra t m := by
  induction h with
  | nil => exact hi
  | cons hr _ ih =>
    rw [List.forall_mem_cons] at hrs
    exact ih (hr.inv hi ho hrs.1.1 hrs.1.2) (ho.fixed hr.fixed) hrs.2

/-- what check_page_free_list does is quiet -/
theorem Checked.quiet (h : Checked l m s t) (hl : ∀ p ∈ l, p < 1048576) : Quiet l s t where
  toFixed := h.toFixed
  ref := h.ref
  link := h.links
  mem := fun f i hf => by
    rw [h.mem f fun p hp e => hf ?_]
    rw [e, Nat.mod_eq_of_lt (hl p hp)]
    exact hp
  log := ⟨[], by rw [h.allocs, List.append_nil], fun q hq => by cases hq⟩

theorem managed_setCr3 (s : St) (v : Word) : Managed (s.setCr3 v) = Managed s := rfl

/-- cr3 is no part of the invariant -/
theorem Inv.setCr3 (h : Inv own extra s l) (v : Word) : Inv own extra ((s.setCr3 v).emit (.lcr3 v)) l :=
  { npages_le := h.npages_le, chain := h.chain, self := h.self, dir_reserved := h.dir_reserved,
    tbl_managed := h.tbl_managed, tbl_inj := h.tbl_inj, pool := h.pool, link_none := h.link_none }

end Conservation

/-! ## User mode -/

/-- user mode may read va: PTE_P and PTE_U are set in both entries of the walk -/
def UserRead (s : St) (va : Word) : Prop :=
  ∃ f perm, mmu s.mem (pgnum s.cr3) (pgnum va) = some (f, perm) ∧ perm &&& pteU ≠ 0#32

/-- user mode may write va: and so is PTE_W -/
def UserWrite (s : St) (va : Word) : Prop :=
  ∃ f perm, mmu s.mem (pgnum s.cr3) (pgnum va) = some (f, perm) ∧ perm &&& pteU ≠ 0#32 ∧ perm &&& pteW ≠ 0#32

/-- from UTOP on no page is writable for user mode, and from ULIM on none is readable -/
structure Guarded (m : PageMap) : Prop where
  readOnly : ∀ n pa perm, 977920 ≤ n → m n = some (pa, perm) → perm &&& pteU = 0#32 ∨ perm &&& pteW = 0#32
  kernelOnly : ∀ n pa perm, 980992 ≤ n → m n = some (pa, perm) → perm &&& pteU = 0#32

/-- kern_pgdir is installed, its self entry is a page-aligned address with PTE_U, and the entries guard the kernel part -/
structure Isolated (s : St) : Prop where
  consistent : Consistent s
  cr3 : pgnum s.cr3 = s.dir
  aligned : (s.kernPgdir - kernbase).toNat % 4096 = 0
  guarded : Guarded (userMap s)

theorem Guarded.congr {m m' : PageMap} (h : Guarded m) (he : ∀ n, 977920 ≤ n → m' n = m n) : Guarded m' where
  readOnly := fun n pa perm hn hm => h.readOnly n pa perm hn (he n hn ▸ hm)
  kernelOnly := fun n pa perm hn hm => h.kernelOnly n pa perm hn (he n (by omega) ▸ hm)

section Isolated

variable {s t : St} {va : Word}

/-- a flag of the permissions that the MMU finds is set in both entries of the walk -/
theorem mmu_flag {m : Mem} {dir n f : ℕ} {perm flag : Word} (h : mmu m dir n = some (f, perm))
    (hf : perm &&& flag ≠ 0#32) : m dir (n / 1024) &&& flag ≠ 0#32 ∧ ∃ e, xlat m dir n = some e ∧ e &&& flag ≠ 0#32 := by
  obtain ⟨e, he, hp⟩ := Option.map_eq_some_iff.1 h
  obtain rfl : m dir (n / 1024) &&& e &&& permMask = perm := (Prod.ext_iff.1 hp).2
  have hd : m dir (n / 1024) &&& e &&& permMask &&& flag = (m dir (n / 1024) &&& flag) &&& (e &&& permMask) := by ac_rfl
  have ht : m dir (n / 1024) &&& e &&& permMask &&& flag = (e &&& flag) &&& (m dir (n / 1024) &&& permMask) := by ac_rfl
  refine ⟨fun h0 => hf ?_, e, he, fun h0 => hf ?_⟩
  · rw [hd, h0, BitVec.zero_and]
  · rw [ht, h0, BitVec.zero_and]

theorem selfEntry_readOnly (h : (s.kernPgdir - kernbase).toNat % 4096 = 0) : selfEntry s &&& pteW = 0#32 := by
  have hlow : selfEntry s &&& 0xFFF#32 = pteU ||| pteP := low_entry h (by decide)
  rw [and_flag _ _ (by decide), hlow]
  decide

theorem pgnum_le {a b : Word} (h : a ≤ b) : pgnum a ≤ pgnum b := by
  rw [pgnum_eq, pgnum_eq]
  exact Nat.div_le_div_right h

theorem pgnum_ulim : pgnum ulim = 980992 := by decide

theorem Isolated.not_write (h : Isolated s) (hva : utop ≤ va) : ¬ UserWrite s va := by
  rintro ⟨f, perm, hm, hU, hW⟩
  rw [h.cr3] at hm
  obtain ⟨hdW, e, he, heW⟩ := mmu_flag hm hW
  obtain ⟨-, e', he', heU⟩ := mmu_flag hm hU
  obtain rfl : e' = e := Option.some.inj (he'.symm.trans he)
  by_cases hw : pgnum va / 1024 = 957
  · -- the page is seen through the self entry
    rw [hw, h.consistent.self] at hdW
    exact hdW (selfEntry_readOnly h.aligned)
  · have hn := pgnum_le hva
    rw [pgnum_utop] at hn
    have hmap : userMap s (pgnum va) = some (translation e') := by
      rw [userMap, if_pos ⟨pgnum_lt va, hw⟩, he, Option.map_some]
    rcases h.guarded.readOnly _ _ _ hn hmap with h0 | h0
    · exact heU ((and_flag e' pteU (by decide)).trans h0)
    · exact heW ((and_flag e' pteW (by decide)).trans h0)

theorem Isolated.not_read (h : Isolated s) (hva : ulim ≤ va) : ¬ UserRead s va := by
  rintro ⟨f, perm, hm, hU⟩
  rw [h.cr3] at hm
  obtain ⟨-, e, he, heU⟩ := mmu_flag hm hU
  have hn := pgnum_le hva
  rw [pgnum_ulim] at hn
  have hmap : userMap s (pgnum va) = some (translation e) := by
    rw [userMap, if_pos ⟨pgnum_lt va, by omega⟩, he, Option.map_some]
  exact heU ((and_flag e pteU (by decide)).trans (h.guarded.kernelOnly _ _ _ hn hmap))

/-- the map changes below UTOP at most -/
theorem MapStep.above {m m' : PageMap} {o : Op} (h : MapStep m o m') (hl : Legal Managed s o) {n : ℕ}
    (hn : 977920 ≤ n) : m' n = m n := by
  cases h with
  | alloc => rfl
  | free => rfl
  | insert pp va perm =>
    have hlt := pgnum_lt_utop hl.2.2.2.1
    exact Function.update_of_ne (by omega) ..
  | noMem => rfl
  | remove va =>
    have hlt := pgnum_lt_utop (show va < utop from hl)
    exact Function.update_of_ne (by omega) ..
  | walk => rfl

/-- **One step.** A legal operation keeps the kernel part as it is. -/
theorem Isolated.step (h : Isolated s) {o : Op} (hl : Legal Managed s o) : ∃ t, Jos.step o s = .ok t ∧ Isolated t := by
  obtain ⟨t, ht, hc, hm⟩ := step_refines h.consistent hl
  obtain ⟨l, hi⟩ := h.consistent.inv
  obtain ⟨t', -, ht', hx, -⟩ := step_inv hi (owns_managed s _) (fun _ hp => hp) o hl
  obtain rfl := Except.ok.inj (ht.symm.trans ht')
  refine ⟨t, ht, hc, ?_, ?_, h.guarded.congr fun n hn => hm.above hl hn⟩
  · rw [hx.cr3, hx.dir]
    exact h.cr3
  · rw [hx.kernPgdir]
    exact h.aligned

end Isolated

/-! ## The end of mem_init -/

section KernelEnd

variable {k k' : Word} (h : roundup k pgsize = roundup k' pgsize)
include h

theorem memInit_congr {cmos : ℕ → BitVec 8} {bootstack : Word} : memInit cmos k bootstack = memInit cmos k' bootstack := by
  simp only [memInit, memInitInstall, checkPageFreeList, checkPages, memInitChecked_congr h, bootAlloc_congr h]

end KernelEnd

section MemInit

variable {s t u v : St} {bootstack kend : Word} {l k m low high : List ℕ}

theorem run_lcr3 (s : St) (v : Word) : (lcr3 v).run s = .ok ((), (s.setCr3 v).emit (.lcr3 v)) := rfl

/-- writing free pages leaves the map alone -/
theorem Tables.userMap_quiet (h : Tables s l) (hq : Quiet k s t) (hk : ∀ q ∈ k, q ∈ l) : userMap t = userMap s := by
  refine userMap_congr ?_
  intro n hn _
  rw [hq.toFixed.dir]
  exact h.xlat_off_free (fun f i hf => hq.mem f i fun hfk => hf (hk f hfk)) hn

/-- the map behind the three calls of boot_map_region: UPAGES for user mode to read, the rest for the kernel -/
theorem kernel_guarded (h : Tables s l) (hp : KernAddr s.pagesVa) (hb : KernAddr bootstack)
    (hr : Rounds s l (kernRounds s bootstack) t m) (he : ∀ d, d < 1024 → d ≠ 957 → s.mem s.dir d = 0#32) :
    Guarded (userMap t) := by
  have hU : (pteU ||| pteP) &&& pteW = 0#32 := by decide
  have hW : (pteW ||| pteP) &&& pteU = 0#32 := by decide
  have hnp := h.npages_le
  -- a permission of the map is one of kernelMap
  have hperm : ∀ n pa perm, userMap t n = some (pa, perm) →
      perm = pteW ||| pteP ∨ n < 978944 + (s.npages.toNat * 8 + 4095) / 4096 ∧ perm = pteU ||| pteP := by
    intro n pa perm hm
    by_cases hn : n < 1048576 ∧ n / 1024 ≠ 957
    · have hva : pgnum (BitVec.ofNat 32 n <<< 12) = n := pgnum_page2pa hn.1
      have htr := kernel_translate h hp hb hr he (BitVec.ofNat 32 n <<< 12) (by rw [pdx_pgnum, hva]; exact hn.2)
      rw [kernelMap_eq hnp, hva, translate, hwWalk, hva] at htr
      rw [userMap, if_pos hn] at hm
      rw [hm, Option.map_some] at htr
      split_ifs at htr with h1 h2 h3
      · exact Or.inl (Prod.ext_iff.1 (Option.some.inj htr)).2
      · exact Or.inl (Prod.ext_iff.1 (Option.some.inj htr)).2
      · exact Or.inr ⟨h3.2, (Prod.ext_iff.1 (Option.some.inj htr)).2⟩
    · rw [userMap, if_neg hn] at hm
      cases hm
  refine ⟨?_, ?_⟩
  · intro n pa perm _ hm
    rcases hperm n pa perm hm with rfl | ⟨-, rfl⟩
    · exact Or.inl hW
    · exact Or.inr hU
  · intro n pa perm hn hm
    rcases hperm n pa perm hm with rfl | ⟨hlt, -⟩
    · exact hW
    · omega

/-- the invariant and the map when check_kern_pgdir has returned -/
theorem memInitVm_inv (h : Booted t low high) (hc : Consistent t) (hb : KernAddr bootstack) :
    ∃ u k m, (memInitVm bootstack).run t = .ok ((), u) ∧ St.Fixed t u ∧ Inv (Managed t) (reservedRefs t) u m ∧
      (∀ q, q ∈ low ++ high ↔ q ∈ k ++ m) ∧ k.length ≤ 66 ∧ 3 ≤ m.length ∧ Guarded (userMap u) ∧
      ∀ i : Fin 2, u.mem u.dir i = 0#32 := by
  obtain ⟨v, u, low', m, hq, hperm, h2, hr, hvm⟩ := memInitVm_run h hb
  have hT := h2.tables
  have hmem : ∀ q, q ∈ low' ++ high ↔ q ∈ low ++ high := fun q => by
    rw [List.mem_append, List.mem_append, hperm.mem_iff]
  have hrounds := fun r hr => kernRounds_mem h2.npages_le bootstack (r := r) hr
  obtain ⟨k, hkl, -, hkc⟩ := hr.taken hT fun r hr => ⟨(hrounds r hr).2.1, (hrounds r hr).1⟩
  have hle : absent kernTables v ≤ 66 := le_trans (Finset.card_filter_le _ _) (le_of_eq kernTables_card)
  obtain ⟨l, hi⟩ := hc.inv
  obtain rfl := Chain.unique hi.chain h.list
  have hiv := hi.quiet hq (fun q hq => List.mem_append_left _ hq) h2.list hmem
  have hiu := hr.inv hiv ((owns_managed t _).fixed hq.toFixed) fun r hr => by
    have hD := mem_kernTables.1 (hrounds r hr).1
    rw [pdx_pgnum] at hD
    exact ⟨by omega, (hrounds r hr).2.1⟩
  refine ⟨u, k, m, hvm, hq.toFixed.trans hr.fixed, hiu, fun q => by rw [← hkl, hmem], by omega, ?_,
    kernel_guarded hT h2.pagesVa hb hr h2.empty, ?_⟩
  · have henough := h2.enough
    have hsum := congrArg List.length hkl
    rw [List.length_append, List.length_append] at hsum
    omega
  · intro i
    have hi := i.isLt
    have hD : (i : ℕ) ∉ kernTables := fun hD => by
      have := mem_kernTables.1 hD
      omega
    exact (kernel_dir hT h2.npages_pos hr h2.empty (by omega)).2.2 hD (by omega)

/-- lcr3, check_page_free_list(0) and check_page_installed_pgdir -/
theorem install_run {own : ℕ → Prop} {extra : ℕ → ℕ} (kend : Word) (hi : Inv own extra u m) (hn : u.nextfree ≠ 0#32)
    (hlen : 3 ≤ m.length) (hdir : ∀ i : Fin 2, u.mem u.dir i = 0#32) :
    ∃ z m', St.Fixed (u.setCr3 (u.kernPgdir - kernbase)) z ∧ Inv own extra z m' ∧ userMap z = userMap u ∧
      ∀ z', (do lcr3 (u.kernPgdir - kernbase); checkPageFreeList kend false; checkPageInstalledPgdir : K Unit).run u =
        .ok ((), z') ↔ z' = z ∧ CheckPasses u m := by
  have hcr3 := run_lcr3 u (u.kernPgdir - kernbase)
  have hiw := hi.setCr3 (u.kernPgdir - kernbase)
  have hTw := hiw.tables
  obtain ⟨x, hx, hiff⟩ := checkPageFreeList_iff kend false hiw.chain hTw.free_lt hn
  have hqx := hx.quiet fun p hp => by
    have h1 := hTw.free_lt p hp
    have h3 := hTw.npages_le
    omega
  have hix := hiw.quiet hqx (fun _ hq => hq) hx.list fun _ => Iff.rfl
  have hTx := hix.tables
  obtain ⟨p, rest, rfl⟩ := exists_three hlen
  have hready : Ready x p rest := by
    refine ready_of_list rfl hTx.npages_le hix.chain hTx.free_lt hTx.dir_free
      (fun q hq => refs_eq_zero.1 (hix.pool.free_ref q hq)) ?_
    intro i
    rw [hx.toFixed.dir, hqx.mem _ _ hTw.dir_free]
    exact hdir i
  obtain ⟨⟨⟩, z, hrz, hqz, hlz⟩ := checkPageInstalledPgdir_run hready (by
    rw [hx.toFixed.dir, hx.toFixed.cr3]
    rfl)
  have hsub : ∀ q ∈ List.ofFn p, q ∈ p 0 :: p 1 :: p 2 :: rest := fun q hq => by
    obtain ⟨j, rfl⟩ := mem_three.1 hq
    fin_cases j <;> simp
  have hperm : ∀ q, q ∈ p 0 :: p 2 :: p 1 :: rest ↔ q ∈ p 0 :: p 1 :: p 2 :: rest := fun q => by
    simp only [List.mem_cons]
    tauto
  refine ⟨z, _, (St.fixed_emit ..).trans (hx.toFixed.trans hqz.toFixed), hix.quiet hqz hsub hlz hperm, ?_, ?_⟩
  · rw [hTx.userMap_quiet hqz hsub, hTw.userMap_quiet hqx fun _ hq => hq]
    rfl
  · intro z'
    rw [Prog.run_bind hcr3, Prog.bind_ok]
    constructor
    · rintro ⟨⟨⟩, x', h1, h2⟩
      obtain ⟨rfl, hpass⟩ := (hiff () x').1 h1
      exact ⟨(Prod.ext_iff.1 (Except.ok.inj (h2.symm.trans hrz))).2, hpass.congr rfl rfl fun _ => Iff.rfl⟩
    · rintro ⟨rfl, hpass⟩
      exact ⟨(), x, (hiff () x).2 ⟨rfl, hpass.congr rfl rfl fun _ => Iff.rfl⟩, hrz⟩

/-- **mem_init behind check_page_free_list(1)** returns exactly when check_page_free_list(0) passes on the pages that
boot_map_region has left, in a state that is isolated, with the references of the reserved pages as they were. -/
theorem memInitInstall_iff (kend : Word) (h : Booted t low high) (hc : Consistent t) (hge : kernbase ≤ t.kernPgdir)
    (hal : (t.kernPgdir - kernbase).toNat % 4096 = 0) (hb : KernAddr bootstack) :
    ∃ k m z, (∀ q, q ∈ low ++ high ↔ q ∈ k ++ m) ∧ k.length ≤ 66 ∧ Isolated z ∧
      (z.npages = t.npages ∧ z.kernPgdir = t.kernPgdir ∧ ∃ m', Inv (Managed t) (reservedRefs t) z m') ∧
      ∀ z', (memInitInstall kend bootstack).run t = .ok ((), z') ↔ z' = z ∧ CheckPasses t m := by
  obtain ⟨u, k, m, hvm, hxu, hiu, hmem, hk, hlen, hguard, hdir⟩ := memInitVm_inv h hc hb
  obtain ⟨z, m', hxz, hiz, hmap, hiff⟩ := install_run kend hiu (by rw [hxu.nextfree]; exact h.nextfree) hlen hdir
  have hM : Managed z = Managed t := (managed_fixed hxz).trans ((managed_setCr3 ..).trans (managed_fixed hxu))
  have hkz : z.kernPgdir = t.kernPgdir := hxz.kernPgdir.trans hxu.kernPgdir
  refine ⟨k, m, z, hmem, hk, ⟨hiz.consistent (fun p hp => by rwa [hM]) fun p hp => if_pos (hM ▸ hp), ?_, ?_, ?_⟩,
    ⟨hxz.npages.trans hxu.npages, hkz, m', hiz⟩, ?_⟩
  · rw [hxz.cr3, hxz.dir]
    rfl
  · rw [hkz]
    exact hal
  · rw [hmap]
    exact hguard
  · intro z'
    rw [memInitInstall, Prog.run_bind hvm, Prog.run_bind (run_get u), Prog.run_bind (run_paddr (by rw [hxu.kernPgdir]; exact hge)), hiff]
    exact and_congr_right fun _ => ⟨fun hp => hp.congr hxu.npages.symm hxu.nextfree.symm fun _ => Iff.rfl,
      fun hp => hp.congr hxu.npages hxu.nextfree fun _ => Iff.rfl⟩

/-- what mem_init has established when check_page_free_list(1) has returned -/
theorem memInitChecked_consistent (h0 : s.nextfree = 0#32) (hl : s.pageFreeList = none) (hk : KernelEnd kend)
    (hrun : (memInitChecked kend).run s = .ok ((), t)) : Consistent t ∧ t.kernPgdir = roundup kend pgsize ∧
      CheckPasses t (initFree (s.boot (roundup kend pgsize))) ∧
      FreeList t (lowFirst 1 (initFree (s.boot (roundup kend pgsize)))) := by
  obtain ⟨v, hv, hn, hpass, hch⟩ := memInitChecked_ok h0 hl hk hrun
  obtain ⟨-, hlo, hlist, -, hcons⟩ := memInitBoot_ok h0 hl hk hv
  obtain ⟨l, hi⟩ := (hcons hn).inv
  obtain rfl := Chain.unique hi.chain hlist
  have hT := hi.tables
  have hq := hch.quiet fun p hp => by
    have h1 := hT.free_lt p hp
    have h2 := hT.npages_le
    omega
  have hit := hi.quiet hq (fun _ hp => hp) hch.list fun p => mem_lowFirst
  refine ⟨hit.consistent_of_fixed hch.toFixed, ?_, hpass.congr hch.npages hch.nextfree fun _ => Iff.rfl, hch.list⟩
  rw [hch.kernPgdir, hlo.kernPgdir, St.boot_kernPgdir]

theorem run_memInit (cmos : ℕ → BitVec 8) (kend bootstack : Word) (s : St) :
    (memInit cmos kend bootstack).run s =
      (do memInitChecked kend; memInitInstall kend bootstack : K Unit).run (s.detect cmos) := by
  simp [memInit, i386DetectMemory, St.detect, cmosTotalmem]

theorem KernelEnd.pgdir (hk : KernelEnd kend) (ht : t.kernPgdir = roundup kend pgsize) :
    kernbase ≤ t.kernPgdir ∧ (t.kernPgdir - kernbase).toNat % 4096 = 0 := by
  obtain ⟨hge, hle, hal⟩ := hk.toNat
  have hkb : kernbase.toNat = 0xF0000000 := rfl
  have h1 : kernbase ≤ t.kernPgdir := by
    rw [BitVec.le_def, ht, hkb]
    omega
  refine ⟨h1, ?_⟩
  rw [BitVec.toNat_sub_of_le h1, ht, hkb]
  omega

/-- **mem_init ends in an isolated state.** -/
theorem memInit_isolated (cmos : ℕ → BitVec 8) (h0 : s.nextfree = 0#32) (hl : s.pageFreeList = none)
    (hk : KernelEnd kend) (hb : KernAddr bootstack) (hrun : (memInit cmos kend bootstack).run s = .ok ((), t)) :
    Isolated t := by
  rw [run_memInit] at hrun
  obtain ⟨⟨⟩, v, hv, hrun⟩ := Prog.bind_ok.1 hrun
  obtain ⟨low, high, hboot⟩ := memInitChecked_booted (s := s.detect cmos) h0 hl hk hv
  obtain ⟨hc, hdir, -, -⟩ := memInitChecked_consistent (s := s.detect cmos) h0 hl hk hv
  obtain ⟨hge, hal⟩ := hk.pgdir hdir
  obtain ⟨k, m, z, -, -, hz, -, hiff⟩ := memInitInstall_iff kend hboot hc hge hal hb
  obtain ⟨rfl, -⟩ := (hiff t).1 hrun
  exact hz

/-- pages of a list that is longer than what is taken are left -/
theorem exists_left {l k m : List ℕ} (hl : ∀ q ∈ l, q ∈ k ++ m) (hd : l.Nodup) (hlen : k.length < l.length) :
    ∃ q ∈ l, q ∈ m := by
  by_contra hno
  have hsub : l ⊆ k := fun q hq => (List.mem_append.1 (hl q hq)).resolve_right fun hm => hno ⟨q, hq, hm⟩
  have hle := (hd.subperm hsub).length_le
  omega

/-- mem_init returns when the boot allocations fit and leave 67 pages behind them -/
theorem memInit_run (cmos : ℕ → BitVec 8) (h0 : s.nextfree = 0#32) (hl : s.pageFreeList = none) (hk : KernelEnd kend)
    (hb : KernAddr bootstack) (hf : BootFits (s.detect cmos) kend) (hn : (s.detect cmos).npages.toNat ≤ 65536)
    (hext : ((s.detect cmos).boot (roundup kend pgsize)).nextfree.toNat + 67 * 4096 + 4095 ≤
      (s.detect cmos).npages.toNat * 4096 + 0xF0000000) :
    ∃ t, (memInit cmos kend bootstack).run s = .ok ((), t) := by
  obtain ⟨hge, hle, -⟩ := hk.toNat
  obtain ⟨-, -, hnext⟩ := hf.toNat hk
  obtain ⟨v, hv⟩ := memInitChecked_run (s := s.detect cmos) h0 hl hk hf hn (by omega)
  obtain ⟨low, high, hboot⟩ := memInitChecked_booted (s := s.detect cmos) h0 hl hk hv
  obtain ⟨hc, hdir, hpass, hlist⟩ := memInitChecked_consistent (s := s.detect cmos) h0 hl hk hv
  obtain ⟨hge', hal⟩ := hk.pgdir hdir
  obtain ⟨k, m, z, hmem, hk66, -, -, hiff⟩ := memInitInstall_iff kend hboot hc hge' hal hb
  have hfree : ∀ q, q ∈ k ++ m ↔ q ∈ initFree ((s.detect cmos).boot (roundup kend pgsize)) := fun q => by
    rw [← hmem, Chain.unique hboot.list hlist, mem_lowFirst]
  set b := (s.detect cmos).boot (roundup kend pgsize) with hbdef
  have hF : (b.nextfree - kernbase).toNat = b.nextfree.toNat - 0xF0000000 :=
    BitVec.toNat_sub_of_le (by
      rw [BitVec.le_def]
      change 0xF0000000 ≤ _
      omega)
  have hmanaged : ∀ i, i < 65536 → (i ∈ initFree b ↔ i < (s.detect cmos).npages.toNat ∧ i ≠ 0 ∧
      (i * 4096 < 0xA0000 ∨ b.nextfree.toNat - 0xF0000000 ≤ i * 4096)) := fun i hi => by
    rw [mem_initFree, managed_iff (by omega), hbdef, St.boot_npages, ← hbdef, hF]
  have hext' : ∀ i, i < 65536 → (page2pa i < extphysmem ↔ i * 4096 < 0x100000) := fun i hi => by
    rw [BitVec.lt_def, page2pa_toNat (by omega)]
    rfl
  refine ⟨z, ?_⟩
  rw [run_memInit, Prog.run_bind hv, hiff z]
  refine ⟨rfl, fun p hp => hpass.pages p ((hfree p).1 (List.mem_append_right _ hp)), ?_, ?_⟩
  · -- 159 pages of base memory
    have hsub : ∀ q ∈ List.range' 1 159, q ∈ k ++ m := fun q hq => by
      rw [List.mem_range'_1] at hq
      exact (hfree q).2 ((hmanaged q (by omega)).2 ⟨by omega, by omega, by omega⟩)
    obtain ⟨q, hq, hqm⟩ := exists_left hsub (List.nodup_range' 1) (by rw [List.length_range']; omega)
    rw [List.mem_range'_1] at hq
    exact ⟨q, hqm, (hext' q (by omega)).2 (by omega)⟩
  · -- 67 pages behind the boot allocations
    have hsub : ∀ q ∈ List.range' ((b.nextfree.toNat - 0xF0000000 + 4095) / 4096) 67, q ∈ k ++ m := fun q hq => by
      rw [List.mem_range'_1] at hq
      exact (hfree q).2 ((hmanaged q (by omega)).2 ⟨by omega, by omega, by omega⟩)
    obtain ⟨q, hq, hqm⟩ := exists_left hsub (List.nodup_range' 1) (by rw [List.length_range']; omega)
    rw [List.mem_range'_1] at hq
    refine ⟨q, hqm, fun hlow => ?_⟩
    have hlt := (hext' q (by omega)).1 hlow
    omega

/-- **User isolation.** In every state that a run of legal operations reaches from the end of mem_init, user mode can
write no address from UTOP on and read none from ULIM on. -/
theorem user_isolation (cmos : ℕ → BitVec 8) (kend bootstack : Word) (s t : St) (h0 : s.nextfree = 0#32)
    (hl : s.pageFreeList = none) (hk : KernelEnd (roundup kend pgsize)) (hb : KernAddr bootstack)
    (hrun : (memInit cmos kend bootstack).run s = .ok ((), t)) (os : List Op)
    (hlegal : LegalRun step (Legal Managed) t os) :
    ∃ u, runAll step os t = .ok u ∧
      ∀ va, (utop ≤ va → ¬ UserWrite u va) ∧ (ulim ≤ va → ¬ UserRead u va ∧ ¬ UserWrite u va) := by
  rw [← memInit_congr (roundup_roundup kend)] at hrun
  obtain ⟨u, hu, hi⟩ := runAll_inv (fun _ _ h hl => h.step hl) t os (memInit_isolated cmos h0 hl hk hb hrun) hlegal
  refine ⟨u, hu, fun va => ⟨hi.not_write, fun hva => ⟨hi.not_read hva, ?_⟩⟩⟩
  rintro ⟨f, perm, hm, hU, -⟩
  exact hi.not_read hva ⟨f, perm, hm, hU⟩

/-- the machine of 512 pages: a page is allocated, and a page table is made for 0x1000 -/
theorem user_isolation_640 : ∃ t u, (memInit cmos640 0xF0117123#32 0xF0110000#32).run coldSt = .ok ((), t) ∧
    runAll step [.alloc 0#32, .walk 0x1000#32 true] t = .ok u ∧
    ∀ va, (utop ≤ va → ¬ UserWrite u va) ∧ (ulim ≤ va → ¬ UserRead u va ∧ ¬ UserWrite u va) := by
  have hk : KernelEnd 0xF0117123#32 := ⟨by decide, by decide⟩
  have hb : KernAddr 0xF0110000#32 := ⟨by decide, by decide, by decide⟩
  obtain ⟨t, ht⟩ := memInit_run (s := coldSt) cmos640 rfl rfl hk hb ⟨by decide, by decide⟩ (by decide) (by
    rw [St.boot_nextfree]
    decide)
  obtain ⟨u, hu, hall⟩ := user_isolation cmos640 0xF0117123#32 0xF0110000#32 coldSt t rfl rfl
    ⟨by decide, by decide⟩ hb ht [.alloc 0#32, .walk 0x1000#32 true]
    ⟨trivial, fun _ _ => ⟨(by decide : 0x1000#32 < utop), fun _ _ => trivial⟩⟩
  exact ⟨t, u, ht, hu, hall⟩

end MemInit

end Jos
