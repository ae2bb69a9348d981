/-
boot_map_region on any page directory.

Nothing in boot_map_region depends on kern_pgdir, and outside the UVPT window nothing depends on the self entry: the
directory here is any frame whose tables are `Apart`. Results:
- `Apart.reach`: pgdir_walk finds the page table of an address or makes one, and changes no translation;
- `Overlaid.round`: one round of the loop maps one more page;
- `bootMapRegion_exact`: boot_map_region maps its region and nothing else, and takes one page for each missing table.
-/
import Jos.Pmap.Region
import Jos.Pmap.CheckFreeList

namespace Jos

open Jos.Lib

/-! ## One walk -/

/-- pgdir_walk(pgdir, va, 1) has returned an entry of table f of the directory in frame dir: l was the free list, m is -/
structure Reached (s : St) (dir : ℕ) (l : List ℕ) (va : Word) (t : St) (m : List ℕ) (f : ℕ) : Prop where
  fixed : St.Fixed s t
  apart : Apart t dir m
  here : tbl t.mem dir (pdx va) = some f
  other : ∀ d, d ≠ pdx va → tbl t.mem dir d = tbl s.mem dir d
  kept : ∀ d, tbl s.mem dir d ≠ none → t.mem dir d = s.mem dir d
  xlat : ∀ n < 1048576, n / 1024 ≠ 957 → xlat t.mem dir n = xlat s.mem dir n
  taken : (tbl s.mem dir (pdx va) ≠ none ∧ l = m ∧ t.ref = s.ref) ∨
    (tbl s.mem dir (pdx va) = none ∧ l = f :: m ∧ t.ref = Function.update s.ref f (s.ref f + 1#16))

theorem Apart.reach {s : St} {dir : ℕ} {l : List ℕ} {pgdir va : Word} (h : Apart s dir l) (hd : frameOf pgdir = dir)
    (hw : pdx va ≠ 957) (hl : tbl s.mem dir (pdx va) = none → l ≠ []) :
    ∃ t m f, (pgdirWalk pgdir va true).run s = .ok (some ⟨f, ptx va⟩, t) ∧ Reached s dir l va t m f := by
  subst hd
  cases hf : tbl s.mem (frameOf pgdir) (pdx va) with
  | some f =>
    obtain ⟨hp, hpg⟩ := tbl_eq_some.1 hf
    have hlt := h.tbl_lt _ f (pdx_lt va) hw hf
    have hrun : (pgdirWalk pgdir va true).run s = .ok (some ⟨_, ptx va⟩, s) := run_walk_found hp (by rwa [hpg])
    rw [hpg] at hrun
    exact ⟨s, l, f, hrun, St.Fixed.refl s, h, hf, fun _ _ => rfl, fun _ _ => rfl, fun _ _ _ => rfl,
      Or.inl ⟨by simp [hf], rfl, rfl⟩⟩
  | none =>
    rcases l with - | ⟨p, m⟩
    · exact absurd rfl (hl hf)
    · have hrun := run_walk_alloc (tbl_eq_none.1 hf) rfl h.chain.1 h.head_lt (h.free_lt p List.mem_cons_self)
      refine ⟨_, m, p, hrun, s.fixed_linkTable .., h.link, ?_, ?_, ?_, ?_,
        Or.inr ⟨hf, rfl, s.linkTable_ref ..⟩⟩
      · rw [St.linkTable_mem, h.tbl_link, if_pos rfl]
      · intro d hne
        rw [St.linkTable_mem, h.tbl_link, if_neg hne]
      · intro d hd
        have hne : d ≠ pdx va := fun e => hd (e ▸ hf)
        rw [St.linkTable_mem, h.linkMem_dir, if_neg hne]
      · intro n hn hne
        rw [St.linkTable_mem, h.xlat_link hf hn hne]

/-! ## The rounds of the loop -/

/-- the absent directory entries of the pages n, …, n+k-1 -/
def missing (m : Mem) (dir n k : ℕ) : Finset ℕ :=
  ((Finset.range k).image fun j => (n + j) / 1024).filter fun d => tbl m dir d = none

theorem mem_missing {m : Mem} {dir n k d : ℕ} :
    d ∈ missing m dir n k ↔ (∃ j < k, (n + j) / 1024 = d) ∧ tbl m dir d = none := by
  simp [missing]

theorem missing_mono {m : Mem} {dir n k k' : ℕ} (h : k ≤ k') : missing m dir n k ⊆ missing m dir n k' := by
  intro d hd
  rw [mem_missing] at hd ⊢
  obtain ⟨⟨j, hj, hd⟩, hn⟩ := hd
  exact ⟨⟨j, by omega, hd⟩, hn⟩

theorem missing_succ (m : Mem) (dir n k : ℕ) : missing m dir n (k + 1) =
    if tbl m dir ((n + k) / 1024) = none then insert ((n + k) / 1024) (missing m dir n k) else missing m dir n k := by
  rw [missing, Finset.range_add_one, Finset.image_insert, Finset.filter_insert, missing]

/-- page n+j is mapped by the entry e j for all j < k: t is the state behind s, and m what is left of the list l -/
structure Overlaid (s : St) (dir : ℕ) (l : List ℕ) (n k : ℕ) (e : ℕ → Word) (t : St) (m : List ℕ) : Prop where
  fixed : St.Fixed s t
  apart : Apart t dir m
  tbl : ∀ d, tbl t.mem dir d = none ↔ tbl s.mem dir d = none ∧ ∀ j < k, (n + j) / 1024 ≠ d
  kept : ∀ d, Jos.tbl s.mem dir d ≠ none → t.mem dir d = s.mem dir d
  xlat : ∀ n' < 1048576, n' / 1024 ≠ 957 → xlat t.mem dir n' =
    if n ≤ n' ∧ n' < n + k then some (e (n' - n)) else xlat s.mem dir n'
  taken : ∃ new, l = new ++ m ∧ new.length = (missing s.mem dir n k).card ∧
    ∀ q, t.ref q = if q ∈ new then s.ref q + 1#16 else s.ref q

section Overlaid

variable {s t : St} {dir n k : ℕ} {l m : List ℕ} {e : ℕ → Word} {pgdir va : Word}

theorem Apart.overlaid (h : Apart s dir l) (n : ℕ) (e : ℕ → Word) : Overlaid s dir l n 0 e s l := by
  refine ⟨St.Fixed.refl s, h, fun d => by simp, fun _ _ => rfl, fun n' _ _ => ?_, [], rfl, by simp [missing],
    fun q => by simp⟩
  have : ¬ (n ≤ n' ∧ n' < n + 0) := by omega
  rw [if_neg this]

/-- a table that is still absent is one more missing table -/
theorem Overlaid.card_succ (h : Overlaid s dir l n k e t m) (hn : Jos.tbl t.mem dir ((n + k) / 1024) = none) :
    (missing s.mem dir n (k + 1)).card = (missing s.mem dir n k).card + 1 := by
  obtain ⟨hs, hj⟩ := (h.tbl _).1 hn
  rw [missing_succ, if_pos hs, Finset.card_insert_of_notMem fun hmem => ?_]
  obtain ⟨⟨j, hjk, he⟩, -⟩ := mem_missing.1 hmem
  exact hj j hjk he

/-- a table that is there was so from the start, or has been made in a round before -/
theorem Overlaid.missing_same (h : Overlaid s dir l n k e t m) (hn : Jos.tbl t.mem dir ((n + k) / 1024) ≠ none) :
    missing s.mem dir n (k + 1) = missing s.mem dir n k := by
  rw [missing_succ]
  split_ifs with hs
  · rw [ne_eq, h.tbl, not_and] at hn
    have hj := hn hs
    push Not at hj
    obtain ⟨j, hjk, he⟩ := hj
    exact Finset.insert_eq_of_mem (mem_missing.2 ⟨⟨j, hjk, he⟩, hs⟩)
  · rfl

/-- the list is not empty as long as a table is missing -/
theorem Overlaid.enough (h : Overlaid s dir l n k e t m) {size : ℕ} (hk : k < size)
    (hl : (missing s.mem dir n size).card ≤ l.length) (hn : Jos.tbl t.mem dir ((n + k) / 1024) = none) : m ≠ [] := by
  obtain ⟨new, rfl, hlen, -⟩ := h.taken
  have hsub : missing s.mem dir n (k + 1) ⊆ missing s.mem dir n size := missing_mono hk
  have hcard := Finset.card_le_card hsub
  rw [h.card_succ hn] at hcard
  rintro rfl
  rw [List.append_nil] at hl
  omega

/-- **One round**: the table of page n+k is found or made, and its entry stored. -/
theorem Overlaid.round (h : Overlaid s dir l n k e t m) (hl : l.Nodup) (hd : frameOf pgdir = dir)
    (hva : pgnum va = n + k) (hw : (n + k) / 1024 ≠ 957) (he : present (e k))
    (hm : Jos.tbl t.mem dir ((n + k) / 1024) = none → m ≠ []) :
    ∃ u m' f, (pgdirWalk pgdir va true).run t = .ok (some ⟨f, ptx va⟩, u) ∧
      Overlaid s dir l n (k + 1) e (u.emit (.store f (ptx va) (e k))) m' := by
  have hlt : n + k < 1048576 := hva ▸ pgnum_lt va
  have hpdx : pdx va = (n + k) / 1024 := by rw [pdx_pgnum, hva]
  have hptx : ptx va = (n + k) % 1024 := by rw [ptx_pgnum, hva]
  have hw' : pdx va ≠ 957 := by rwa [hpdx]
  obtain ⟨u, m', f, hrun, hr⟩ := h.apart.reach hd hw' (by rwa [hpdx])
  have hhere := hr.here
  rw [hpdx] at hhere
  refine ⟨u, m', f, hrun, ?_⟩
  rw [hptx]
  have hfdir := hr.apart.tbl_dir _ f (by omega) hw hhere
  refine ⟨(h.fixed.trans hr.fixed).trans (St.fixed_emit ..), hr.apart.store hlt hw hhere _, ?_,
    ?_, ?_, ?_⟩
  · intro d
    rw [St.emit_mem, Ev.mem, hr.apart.tbl_store hlt hw hhere]
    by_cases hdd : d = (n + k) / 1024
    · subst hdd
      simp only [hhere, reduceCtorEq, false_iff, not_and]
      exact fun _ hj => hj k (Nat.lt_succ_self k) rfl
    · rw [hr.other d (by rwa [hpdx]), h.tbl d]
      refine and_congr_right fun _ => ⟨fun hj j hjk => ?_, fun hj j hjk => hj j (Nat.lt_succ_of_lt hjk)⟩
      rcases Nat.lt_succ_iff_lt_or_eq.1 hjk with hjk | rfl
      · exact hj j hjk
      · exact Ne.symm hdd
  · -- an entry that was there is not written
    intro d hd
    have ht : Jos.tbl t.mem dir d ≠ none := fun hn => hd ((h.tbl d).1 hn).1
    rw [St.emit_mem, ← h.kept d hd, ← hr.kept d ht]
    simp [Ev.mem, Mem.set, hfdir.symm]
  · intro n' hn' hw'
    rw [St.emit_mem, Ev.mem, hr.apart.xlat_store hlt hw hhere _ hn' hw', if_pos he, hr.xlat n' hn' hw', h.xlat n' hn' hw']
    by_cases hnn : n' = n + k
    · subst hnn
      rw [if_pos rfl, if_pos (by omega), Nat.add_sub_cancel_left]
    · rw [if_neg hnn]
      refine if_congr (by omega) rfl rfl
  · obtain ⟨new, hnew, hlen, href⟩ := h.taken
    rcases hr.taken with ⟨hne, rfl, hrr⟩ | ⟨hnone, rfl, hrr⟩
    · rw [hpdx] at hne
      refine ⟨new, hnew, by rw [h.missing_same hne, hlen], fun q => ?_⟩
      rw [St.emit_ref, hrr, href]
    · rw [hpdx] at hnone
      -- page f has not been taken before
      have hf : f ∉ new := fun hf => List.disjoint_of_nodup_append (hnew ▸ hl) hf List.mem_cons_self
      refine ⟨new ++ [f], by rw [hnew, List.append_assoc]; rfl, ?_, ?_⟩
      · rw [List.length_append, hlen, h.card_succ hnone, List.length_singleton]
      · intro q
        rw [St.emit_ref, hrr]
        by_cases hq : q = f
        · subst hq
          rw [Function.update_self, href, if_neg hf, if_pos (List.mem_append_right _ List.mem_cons_self)]
        · rw [Function.update_of_ne hq, href]
          simp only [List.mem_append, List.mem_singleton, hq, or_false]

/-- in the UVPT window, only the pages of tables that have been made change -/
theorem Overlaid.window (h : Overlaid s dir l n k e t m) (hself : Jos.tbl s.mem dir 957 = some dir) {n' : ℕ}
    (hw : n' / 1024 = 957) (hne : Jos.xlat t.mem dir n' ≠ Jos.xlat s.mem dir n') :
    Jos.tbl s.mem dir (n' % 1024) = none := by
  by_contra hd
  have hkept : t.mem dir 957 = s.mem dir 957 := h.kept 957 (by simp [hself])
  refine hne (xlat_congr (by rw [hw]; exact hkept) fun f hf => ?_)
  rw [hw, hself] at hf
  obtain rfl := Option.some.inj hf
  exact h.kept _ hd

end Overlaid

/-! ## The loop -/

/-- the entry of page j of the region -/
def regionEntry (pa perm : Word) (j : ℕ) : Word := entry (pa + BitVec.ofNat 32 j * pgsize) perm

theorem regionEntry_spec {pa perm : Word} (hpa : pa.toNat % 4096 = 0) (hperm : perm.toNat < 4096) (j : ℕ) :
    pteAddr (regionEntry pa perm j) = pa + BitVec.ofNat 32 j * pgsize ∧
      regionEntry pa perm j &&& 0xFFF#32 = perm ||| pteP := by
  have ha := aligned_add hpa j
  exact ⟨pteAddr_entry ha hperm, low_entry ha hperm⟩

section Loop

variable {s t u : St} {dir k : ℕ} {l m : List ℕ} {pgdir va size pa perm : Word}

/-- the test of the loop fails behind the last page -/
theorem bootMapLoop_end (t : St) (fuel : ℕ) :
    (bootMapLoop pgdir va size pa perm (fuel + 1) (BitVec.ofNat 32 size.toNat)).run t = .ok ((), t) := by
  have hend : ¬ va + BitVec.ofNat 32 size.toNat < va + size := by
    rw [BitVec.ofNat_toNat, BitVec.setWidth_eq]
    exact BitVec.lt_irrefl _
  rw [bootMapLoop, if_neg hend]
  rfl

variable (hd : frameOf pgdir = dir) (ha : va.toNat % 4096 = 0) (hsz : va.toNat + size.toNat * 4096 ≤ 4294967296)
  (hw : ∀ j < size.toNat, (pgnum va + j) / 1024 ≠ 957)
include ha hsz

/-- va + k < va + size does not wrap: i counts pages, and the region ends below 4GB -/
theorem bootMapLoop_test (hk : k < size.toNat) : va + BitVec.ofNat 32 k < va + size := by
  have hlt := va.isLt
  rw [BitVec.lt_def, BitVec.toNat_add, BitVec.toNat_add, BitVec.toNat_ofNat]
  omega

include hd hw

/-- one round of the loop, with a page left for a missing table -/
theorem bootMapLoop_round (hnd : l.Nodup) (h : Overlaid s dir l (pgnum va) k (regionEntry pa perm) t m)
    (hk : k < size.toNat) (hm : tbl t.mem dir ((pgnum va + k) / 1024) = none → m ≠ []) :
    ∃ u m', Overlaid s dir l (pgnum va) (k + 1) (regionEntry pa perm) u m' ∧ ∀ fuel,
      (bootMapLoop pgdir va size pa perm (fuel + 1) (BitVec.ofNat 32 k)).run t =
        (bootMapLoop pgdir va size pa perm fuel (BitVec.ofNat 32 (k + 1))).run u := by
  have hround : pgnum (regionRound va pa perm k).1 = pgnum va + k := pgnum_regionRound ha hsz hk
  have hpg : pgnum (va + BitVec.ofNat 32 k * pgsize) = pgnum va + k := hround
  obtain ⟨u, m', f, hrun, hu⟩ := h.round hnd hd hpg (hw k hk) (present_entry _ _) hm
  have hsucc : BitVec.ofNat 32 k + 1#32 = BitVec.ofNat 32 (k + 1) := by
    rw [BitVec.ofNat_add]
  refine ⟨_, m', hu, fun fuel => ?_⟩
  rw [bootMapLoop, if_pos (bootMapLoop_test ha hsz hk), Prog.run_bind hrun]
  simp only [StateT.run_bind, run_stw, ok_bind, hsucc]
  rfl

/-- the rounds that are left, r of them, after the first k -/
theorem bootMapLoop_overlaid (hl : (missing s.mem dir (pgnum va) size.toNat).card ≤ l.length) (hnd : l.Nodup) (r : ℕ)
    {k fuel : ℕ} {t : St} {m : List ℕ} (h : Overlaid s dir l (pgnum va) k (regionEntry pa perm) t m)
    (hk : k + r = size.toNat) (hf : r < fuel) :
    ∃ u m', (bootMapLoop pgdir va size pa perm fuel (BitVec.ofNat 32 k)).run t = .ok ((), u) ∧
      Overlaid s dir l (pgnum va) size.toNat (regionEntry pa perm) u m' := by
  induction r generalizing k fuel t m with
  | zero =>
    obtain ⟨fuel, rfl⟩ : ∃ k, fuel = k + 1 := ⟨fuel - 1, by omega⟩
    obtain rfl : k = size.toNat := hk
    exact ⟨t, m, bootMapLoop_end t fuel, h⟩
  | succ r ih =>
    obtain ⟨fuel, rfl⟩ : ∃ k, fuel = k + 1 := ⟨fuel - 1, by omega⟩
    have hks : k < size.toNat := by omega
    have hrf : r < fuel := by omega
    obtain ⟨u, m', hu, hrun⟩ := bootMapLoop_round hd ha hsz hw hnd h hks (h.enough hks hl)
    rw [hrun fuel]
    exact ih hu (by omega) hrf

end Loop

/-- **boot_map_region maps exactly its region**, in any directory whose page tables are apart. -/
theorem bootMapRegion_exact (pgdir va size pa perm : Word) (s : St) (l : List ℕ) (h : Apart s (frameOf pgdir) l)
    (hva : va.toNat % 4096 = 0) (hpa : pa.toNat % 4096 = 0) (hsz : va.toNat + size.toNat * 4096 ≤ 4294967296)
    (hw : ∀ k < size.toNat, (pgnum va + k) / 1024 ≠ 957) (hperm : perm.toNat < 4096)
    (hl : (missing s.mem (frameOf pgdir) (pgnum va) size.toNat).card ≤ l.length) :
    ∃ t new m, (bootMapRegion pgdir va size pa perm).run s = .ok ((), t) ∧
      (∀ k < size.toNat, ∃ e, xlat t.mem (frameOf pgdir) (pgnum va + k) = some e ∧
        pteAddr e = pa + BitVec.ofNat 32 k * pgsize ∧ e &&& 0xFFF#32 = perm ||| pteP) ∧
      (∀ n < 1048576, n / 1024 ≠ 957 → ¬ (pgnum va ≤ n ∧ n < pgnum va + size.toNat) →
        xlat t.mem (frameOf pgdir) n = xlat s.mem (frameOf pgdir) n) ∧
      FreeList t m ∧ l = new ++ m ∧ new.length = (missing s.mem (frameOf pgdir) (pgnum va) size.toNat).card ∧
      ∀ p, t.ref p = if p ∈ new then s.ref p + 1#16 else s.ref p := by
  obtain ⟨t, m, hrun, ho⟩ := bootMapLoop_overlaid rfl hva hsz hw hl (Chain.nodup h.chain) size.toNat
    (h.overlaid (pgnum va) (regionEntry pa perm)) (Nat.zero_add _) (Nat.lt_succ_self _)
  obtain ⟨new, hnew, hlen, href⟩ := ho.taken
  refine ⟨t, new, m, hrun, ?_, ?_, ho.apart.chain, hnew, hlen, href⟩
  · intro k hk
    have hlt : pgnum va + k < 1048576 := by
      rw [pgnum_eq]
      omega
    have hx := ho.xlat (pgnum va + k) hlt (hw k hk)
    rw [if_pos (by omega), Nat.add_sub_cancel_left] at hx
    exact ⟨_, hx, regionEntry_spec hpa hperm k⟩
  · intro n hn hne hout
    rw [ho.xlat n hn hne, if_neg hout]

theorem apart_empty {s : St} {dir : ℕ} {l : List ℕ} (hn : s.npages.toNat ≤ 65536) (hc : FreeList s l)
    (hlt : ∀ p ∈ l, p < s.npages.toNat) (hd : dir ∉ l) (h0 : ∀ d, tbl s.mem dir d = none) : Apart s dir l := by
  refine ⟨hn, hc, hlt, hd, ?_, ?_, ?_, ?_⟩
  · exact fun d f _ _ hf => absurd hf (by simp [h0])
  · exact fun d f _ _ hf => absurd hf (by simp [h0])
  · exact fun d f _ _ hf => absurd hf (by simp [h0])
  · exact fun d d' f _ _ _ _ hf => absurd hf (by simp [h0])

/-- two pages at the top of the address space, in an empty directory -/
theorem bootMapRegion_exact_two : ∃ t e, (bootMapRegion 0xF0118000#32 0xFFFFE000#32 2#32 0x5000#32 pteW).run threeFreeSt =
    .ok ((), t) ∧ xlat t.mem 280 1048575 = some e ∧ pteAddr e = 0x6000#32 := by
  have h0 : ∀ d, tbl threeFreeSt.mem (frameOf 0xF0118000#32) d = none := fun d => tbl_eq_none.2 not_present_zero
  have h : Apart threeFreeSt (frameOf 0xF0118000#32) [3, 1280, 2] :=
    apart_empty (by decide) ⟨rfl, rfl, rfl, rfl⟩ (by decide) (by decide) h0
  have hcard : (missing threeFreeSt.mem (frameOf 0xF0118000#32) (pgnum 0xFFFFE000#32) 2).card ≤ 3 := by
    refine le_trans (Finset.card_le_card (Finset.filter_subset _ _)) (le_trans Finset.card_image_le ?_)
    decide
  obtain ⟨t, -, -, hrun, hx, -⟩ := bootMapRegion_exact 0xF0118000#32 0xFFFFE000#32 2#32 0x5000#32 pteW threeFreeSt
    [3, 1280, 2] h (by decide) (by decide) (by decide) (by decide) (by decide) hcard
  obtain ⟨e, he, hpa, -⟩ := hx 1 (by decide)
  exact ⟨t, e, hrun, he, hpa⟩

end Jos
