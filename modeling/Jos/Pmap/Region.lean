/-
boot_map_region of kern/pmap.c.

The loop counts pages, `va + i < va + size` with both sides in machine words. A run of it is a sequence of rounds
(`Rounds`): each finds or makes the page table of its address and stores one entry. What a sequence of rounds does is
then read off round by round:
- `Rounds.xlat`: the translation is overlaid with the entries, the last one first;
- `Rounds.dir_cases`: a directory entry stays, or becomes the entry of a new page table;
- `Rounds.taken`: the new page tables are the first pages of the free list, one for each entry of D that was absent;
- `bootMapRegion_run`: a list that is long enough for these is enough for the loop to end, without a null pointer.
-/
import Jos.Pmap.Refine
import Jos.Lib.Overlay

namespace Jos

open Jos.Lib

def bootMapLoop (pgdir va size pa perm : Word) : ℕ → Word → K Unit
  | 0, _ => throw .diverge
  | fuel + 1, i => do
    if va + i < va + size then
      match ← pgdirWalk pgdir (va + i * pgsize) true with
      | none => throw .nullStore
      | some pte =>
        stw pte ((pa + i * pgsize) ||| perm ||| pteP)
        bootMapLoop pgdir va size pa perm fuel (i + 1#32)

/-- size is a number of pages -/
def bootMapRegion (pgdir va size pa perm : Word) : K Unit :=
  bootMapLoop pgdir va size pa perm (size.toNat + 1) 0#32

/-! ## Tables -/

/-- the frame behind i whole pages -/
theorem aligned_add {pa : Word} (h : pa.toNat % 4096 = 0) (i : ℕ) :
    (pa + BitVec.ofNat 32 i * pgsize).toNat % 4096 = 0 := by
  have hp : pgsize.toNat = 4096 := rfl
  rw [BitVec.toNat_add, BitVec.toNat_mul, BitVec.toNat_ofNat, hp]
  omega

section Tables

variable {s : St} {l : List ℕ} {dir : ℕ}

/-- a new page table keeps the tables apart -/
theorem Apart.link {p d : ℕ} (h : Apart s dir (p :: l)) : Apart (s.linkTable dir d p) dir l := by
  have hpl : p ∉ l := (List.nodup_cons.1 (Chain.nodup h.chain)).1
  have hx := s.fixed_linkTable dir d p
  have htbl : ∀ d', tbl (s.linkTable dir d p).mem dir d' = if d' = d then some p else tbl s.mem dir d' := fun d' => by
    rw [St.linkTable_mem, h.tbl_link]
  have hold : ∀ {d' f}, d' < 1024 → d' ≠ 957 → tbl s.mem dir d' = some f → f ≠ p := fun hd' hw' hf e =>
    h.tbl_free _ _ hd' hw' hf (e ▸ List.mem_cons_self)
  refine ⟨by rw [hx.npages]; exact h.npages_le, ?_, ?_, ?_, ?_, ?_, ?_, ?_⟩
  · refine Chain.congr h.chain.2 ?_
    intro q hq
    have hqp : q ≠ p := ne_of_mem_of_not_mem hq hpl
    simp [hqp]
  · intro q hq
    rw [hx.npages]
    exact h.free_lt q (List.mem_cons_of_mem p hq)
  · exact fun hd => h.dir_free (List.mem_cons_of_mem p hd)
  · intro d' f hd' hw' hf
    rw [htbl] at hf
    rw [hx.npages]
    split_ifs at hf with he
    · exact Option.some.inj hf ▸ h.free_lt p List.mem_cons_self
    · exact h.tbl_lt d' f hd' hw' hf
  · intro d' f hd' hw' hf
    rw [htbl] at hf
    split_ifs at hf with he
    · exact Option.some.inj hf ▸ h.head_ne_dir.symm
    · exact h.tbl_dir d' f hd' hw' hf
  · intro d' f hd' hw' hf
    rw [htbl] at hf
    split_ifs at hf with he
    · exact Option.some.inj hf ▸ hpl
    · exact fun hl => h.tbl_free d' f hd' hw' hf (List.mem_cons_of_mem p hl)
  · intro d1 d2 f h1 h2 w1 w2 hf1 hf2
    rw [htbl] at hf1 hf2
    split_ifs at hf1 hf2 with e1 e2 e2
    · exact e1.trans e2.symm
    · exact absurd (Option.some.inj hf1).symm (hold h2 w2 hf2)
    · exact absurd (Option.some.inj hf2).symm (hold h1 w1 hf1)
    · exact h.tbl_inj d1 d2 f h1 h2 w1 w2 hf1 hf2

/-- and so does an entry stored in one of them -/
theorem Apart.store {n f : ℕ} (h : Apart s dir l) (hn : n < 1048576) (hw : n / 1024 ≠ 957)
    (hf : tbl s.mem dir (n / 1024) = some f) (v : Word) : Apart (s.emit (.store f (n % 1024) v)) dir l := by
  have htbl : ∀ d, tbl (s.emit (.store f (n % 1024) v)).mem dir d = tbl s.mem dir d := fun d =>
    h.tbl_store hn hw hf v d
  constructor
  · exact h.npages_le
  · exact h.chain.congr rfl (by simp)
  · exact h.free_lt
  · exact h.dir_free
  · intro d g; rw [htbl]; exact h.tbl_lt d g
  · intro d g; rw [htbl]; exact h.tbl_dir d g
  · intro d g; rw [htbl]; exact h.tbl_free d g
  · intro d d' g; rw [htbl, htbl]; exact h.tbl_inj d d' g

theorem Tables.link {p d : ℕ} (h : Tables s (p :: l)) (hw : d ≠ 957) : Tables (s.linkTable s.dir d p) l := by
  have hdir := (s.fixed_linkTable s.dir d p).dir
  have ha : Apart (s.linkTable s.dir d p) (s.linkTable s.dir d p).dir l := by
    rw [hdir]
    exact h.apart.link
  refine ha.tables ?_
  rw [hdir, St.linkTable_mem, tbl_link h, if_neg (Ne.symm hw)]
  exact h.self

theorem Tables.store {n f : ℕ} (h : Tables s l) (hn : n < 1048576) (hw : n / 1024 ≠ 957)
    (hf : tbl s.mem s.dir (n / 1024) = some f) (v : Word) : Tables (s.emit (.store f (n % 1024) v)) l :=
  (h.apart.store hn hw hf v).tables ((tbl_store h hn hw hf v 957).trans h.self)

theorem Walked.tables {va : Word} {t : St} {m : List ℕ} {f : ℕ} (h : Walked s l va t m f) (ht : Tables s l)
    (hw : pdx va ≠ 957) : Tables t m := by
  cases h with
  | found => exact ht
  | made hn hl =>
    subst hl
    exact ht.link hw

end Tables

/-! ## Rounds -/

/-- one round: pgdir_walk finds or makes the page table of va, and e is stored as its entry -/
inductive Round (s : St) (l : List ℕ) (va e : Word) : St → List ℕ → Prop where
  | mk {t : St} {m : List ℕ} {f : ℕ} (h : Walked s l va t m f) : Round s l va e (t.emit (.store f (ptx va) e)) m

/-- rounds with addresses and entries rs -/
inductive Rounds : St → List ℕ → List (Word × Word) → St → List ℕ → Prop where
  | nil (s : St) (l : List ℕ) : Rounds s l [] s l
  | cons {s t u : St} {l m k : List ℕ} {r : Word × Word} {rs : List (Word × Word)} (h : Round s l r.1 r.2 t m)
    (hs : Rounds t m rs u k) : Rounds s l (r :: rs) u k

theorem Rounds.append {s t u : St} {l m k : List ℕ} {rs rs' : List (Word × Word)} (h : Rounds s l rs t m)
    (h' : Rounds t m rs' u k) : Rounds s l (rs ++ rs') u k := by
  induction h with
  | nil => exact h'
  | cons hr _ ih => exact .cons hr (ih h')

/-- the directory entries of D that are absent -/
def absent (D : Finset ℕ) (s : St) : ℕ := (D.filter fun d => tbl s.mem s.dir d = none).card

section Round

variable {s t : St} {l m : List ℕ} {va e : Word}

theorem Round.fixed (h : Round s l va e t m) : St.Fixed s t := by
  obtain ⟨hw⟩ := h
  exact hw.fixed.trans (St.fixed_emit ..)

theorem Round.tables (h : Round s l va e t m) (ht : Tables s l) (hw : pdx va ≠ 957) : Tables t m := by
  obtain ⟨hwk⟩ := h
  rw [ptx_pgnum]
  exact (hwk.tables ht hw).store (pgnum_lt va) (by rwa [← pdx_pgnum]) (by rw [← pdx_pgnum]; exact hwk.tbl ht) e

theorem Round.xlat (h : Round s l va e t m) (ht : Tables s l) (hw : pdx va ≠ 957) (he : present e) {n : ℕ}
    (hn : n < 1048576) (hne : n / 1024 ≠ 957) :
    Jos.xlat t.mem t.dir n = if n = pgnum va then some e else Jos.xlat s.mem s.dir n := by
  obtain ⟨hwk⟩ := h
  have hf := hwk.tbl ht
  rw [(St.fixed_emit ..).dir, St.emit_mem, ptx_pgnum]
  rw [pdx_pgnum] at hf hw
  rw [Ev.mem, xlat_store (hwk.tables ht (by rwa [pdx_pgnum])) (pgnum_lt va) hw hf e hn, if_pos he, hwk.xlat ht hn hne]

/-- the directory entries, the self entry included -/
theorem Round.dir (h : Round s l va e t m) (ht : Tables s l) (hw : pdx va ≠ 957) (d : ℕ) :
    t.mem t.dir d = s.mem s.dir d ∨
      d = pdx va ∧ tbl s.mem s.dir d = none ∧ ∃ p < s.npages.toNat, t.mem t.dir d = tableEntry p := by
  obtain ⟨hwk⟩ := h
  have hne := (hwk.tables ht hw).tbl_dir _ _ (pdx_lt va) hw (hwk.tbl ht)
  rw [(St.fixed_emit ..).dir, St.emit_mem]
  simp only [Ev.mem, Mem.set, Ne.symm hne, false_and, if_false]
  cases hwk with
  | found => exact Or.inl rfl
  | made hn hl =>
    subst hl
    rw [(s.fixed_linkTable ..).dir, St.linkTable_mem, linkMem_dir ht]
    split_ifs with hd
    · exact Or.inr ⟨hd, hd ▸ hn, _, ht.free_lt _ List.mem_cons_self, rfl⟩
    · exact Or.inl rfl

theorem Round.present (h : Round s l va e t m) (ht : Tables s l) (hw : pdx va ≠ 957) : present (t.mem t.dir (pdx va)) := by
  obtain ⟨hwk⟩ := h
  have hne := (hwk.tables ht hw).tbl_dir _ _ (pdx_lt va) hw (hwk.tbl ht)
  rw [(St.fixed_emit ..).dir, St.emit_mem]
  simp only [Ev.mem, Mem.set, Ne.symm hne, false_and, if_false]
  exact (tbl_eq_some.1 (hwk.tbl ht)).1

/-- a page table is taken from the list only for an absent entry -/
theorem Round.taken {D : Finset ℕ} (h : Round s l va e t m) (ht : Tables s l) (hw : pdx va ≠ 957) (hD : pdx va ∈ D) :
    ∃ k, l = k ++ m ∧ allocs t.log = allocs s.log ++ k ∧ k.length + absent D t = absent D s := by
  have htbl : ∀ d, tbl t.mem t.dir d = if d = pdx va then tbl t.mem t.dir d else tbl s.mem s.dir d := fun d => by
    split_ifs with hd
    · rfl
    · rcases h.dir ht hw d with he | ⟨hd', -⟩
      · unfold tbl; rw [he]
      · exact absurd hd' hd
  have hpres : tbl t.mem t.dir (pdx va) ≠ none := fun hn => (tbl_eq_none.1 hn) (h.present ht hw)
  have habs : (D.filter fun d => tbl t.mem t.dir d = none) = (D.filter fun d => tbl s.mem s.dir d = none).erase (pdx va) := by
    ext d
    rw [Finset.mem_erase, Finset.mem_filter, Finset.mem_filter, htbl]
    split_ifs with hd
    · rw [hd]; simp [hpres]
    · simp [hd]
  obtain ⟨hwk⟩ := h
  cases hwk with
  | found hf =>
    refine ⟨[], rfl, by simp [allocs], ?_⟩
    rw [absent, habs, Finset.erase_eq_of_notMem (by simp [hf]), List.length_nil, Nat.zero_add, absent]
  | made hn hl =>
    refine ⟨[_], hl, ?_, ?_⟩
    · rw [St.emit_log, St.linkTable_log, allocs_append, allocs_append, allocs_append, allocs_append, allocs_fillEvs]
      simp [allocs]
    · have hmem : pdx va ∈ D.filter fun d => tbl s.mem s.dir d = none := Finset.mem_filter.2 ⟨hD, hn⟩
      have hpos := Finset.card_pos.2 ⟨_, hmem⟩
      rw [absent, habs, Finset.card_erase_of_mem hmem, List.length_singleton, absent]
      omega

end Round

section Rounds

variable {s t : St} {l m : List ℕ} {rs : List (Word × Word)}

theorem Rounds.fixed (h : Rounds s l rs t m) : St.Fixed s t := by
  induction h with
  | nil => exact St.Fixed.refl _
  | cons hr _ ih => exact hr.fixed.trans ih

theorem Rounds.tables (h : Rounds s l rs t m) (ht : Tables s l) (hw : ∀ r ∈ rs, pdx r.1 ≠ 957) : Tables t m := by
  induction h with
  | nil => exact ht
  | cons hr _ ih =>
    rw [List.forall_mem_cons] at hw
    exact ih (hr.tables ht hw.1) hw.2

/-- the translation behind a sequence of rounds -/
theorem Rounds.xlat (h : Rounds s l rs t m) (ht : Tables s l) (hw : ∀ r ∈ rs, pdx r.1 ≠ 957 ∧ present r.2) {n : ℕ}
    (hn : n < 1048576) (hne : n / 1024 ≠ 957) :
    Jos.xlat t.mem t.dir n = overlay (Jos.xlat s.mem s.dir) (rs.map fun r => (pgnum r.1, r.2)) n := by
  induction h with
  | nil => rfl
  | @cons s t u l m k r rs hr _ ih =>
    rw [List.forall_mem_cons] at hw
    rw [ih (hr.tables ht hw.1.1) hw.2, List.map_cons, overlay_cons]
    refine overlay_congr ?_ _
    rw [hr.xlat ht hw.1.1 hw.1.2 hn hne]
    by_cases he : n = pgnum r.1
    · rw [if_pos he, he, Function.update_self]
    · rw [if_neg he, Function.update_of_ne he]

theorem Rounds.dir_cases (h : Rounds s l rs t m) (ht : Tables s l) (hw : ∀ r ∈ rs, pdx r.1 ≠ 957) (d : ℕ) :
    t.mem t.dir d = s.mem s.dir d ∨ (∃ r ∈ rs, d = pdx r.1) ∧ ∃ p < s.npages.toNat, t.mem t.dir d = tableEntry p := by
  induction h with
  | nil => exact Or.inl rfl
  | @cons s t u l m k r rs hr _ ih =>
    rw [List.forall_mem_cons] at hw
    rcases ih (hr.tables ht hw.1) hw.2 with hu | ⟨⟨r', hr', hd⟩, p, hp, hu⟩
    · rw [hu]
      rcases hr.dir ht hw.1 d with ht | ⟨hd, -, p, hp, ht⟩
      · exact Or.inl ht
      · exact Or.inr ⟨⟨r, List.mem_cons_self, hd⟩, p, hp, ht⟩
    · rw [hr.fixed.npages] at hp
      exact Or.inr ⟨⟨r', List.mem_cons_of_mem r hr', hd⟩, p, hp, hu⟩

/-- present entries stay present -/
theorem Rounds.dir_mono (h : Rounds s l rs t m) (ht : Tables s l) (hw : ∀ r ∈ rs, pdx r.1 ≠ 957) {d : ℕ}
    (hd : present (s.mem s.dir d)) : present (t.mem t.dir d) := by
  rcases h.dir_cases ht hw d with he | ⟨-, p, hp, he⟩
  · rwa [he]
  · rw [he]
    have := ht.npages_le
    exact present_tableEntry (by omega)

theorem Rounds.dir_present (h : Rounds s l rs t m) (ht : Tables s l) (hw : ∀ r ∈ rs, pdx r.1 ≠ 957) {d : ℕ}
    (hd : ∃ r ∈ rs, d = pdx r.1) : present (t.mem t.dir d) := by
  induction h with
  | nil => obtain ⟨r, hr, -⟩ := hd; cases hr
  | @cons s t u l m k r rs hr hrs ih =>
    rw [List.forall_mem_cons] at hw
    have ht' := hr.tables ht hw.1
    obtain ⟨r', hr', rfl⟩ := hd
    rcases List.mem_cons.1 hr' with rfl | hr'
    · exact hrs.dir_mono ht' hw.2 (hr.present ht hw.1)
    · exact ih ht' hw.2 ⟨r', hr', rfl⟩

/-- the pages taken off the list: its first ones, as many as entries of D have become present -/
theorem Rounds.taken {D : Finset ℕ} (h : Rounds s l rs t m) (ht : Tables s l)
    (hw : ∀ r ∈ rs, pdx r.1 ≠ 957 ∧ pdx r.1 ∈ D) :
    ∃ k, l = k ++ m ∧ allocs t.log = allocs s.log ++ k ∧ k.length + absent D t = absent D s := by
  induction h with
  | nil => exact ⟨[], rfl, by simp, by simp⟩
  | cons hr _ ih =>
    rw [List.forall_mem_cons] at hw
    obtain ⟨k1, hl1, ha1, hc1⟩ := hr.taken ht hw.1.1 hw.1.2
    obtain ⟨k2, hl2, ha2, hc2⟩ := ih (hr.tables ht hw.1.1) hw.2
    refine ⟨k1 ++ k2, by rw [hl1, hl2, List.append_assoc], by rw [ha2, ha1, List.append_assoc], ?_⟩
    rw [List.length_append]
    omega

end Rounds

/-! ## The loop -/

/-- page i of a region, and its entry -/
def regionRound (va pa perm : Word) (i : ℕ) : Word × Word :=
  (va + BitVec.ofNat 32 i * pgsize, entry (pa + BitVec.ofNat 32 i * pgsize) perm)

def regionRounds (va size pa perm : Word) : List (Word × Word) :=
  (List.range size.toNat).map (regionRound va pa perm)

section Run

variable {s : St} {l : List ℕ} {va size pa perm : Word} {D : Finset ℕ}

theorem bootMapLoop_run (hadd : va.toNat + size.toNat < 4294967296) (hD : 957 ∉ D) (k : ℕ) {i : ℕ} (fuel : ℕ)
    {s : St} {l : List ℕ} (h : Tables s l) (hi : i + k = size.toNat)
    (hr : ∀ j, j < size.toNat → pdx (regionRound va pa perm j).1 ∈ D) (hle : absent D s ≤ l.length) (hf : k < fuel) :
    ∃ t m, (bootMapLoop s.kernPgdir va size pa perm fuel (BitVec.ofNat 32 i)).run s = .ok ((), t) ∧
      Rounds s l ((List.range' i k).map (regionRound va pa perm)) t m := by
  have hmod : i % 4294967296 = i := Nat.mod_eq_of_lt (by omega)
  induction k generalizing i fuel s l with
  | zero =>
    obtain ⟨fuel, rfl⟩ : ∃ k, fuel = k + 1 := ⟨fuel - 1, by omega⟩
    refine ⟨s, l, ?_, .nil s l⟩
    have hlt : ¬ va + BitVec.ofNat 32 i < va + size := by
      rw [BitVec.lt_def, BitVec.toNat_add, BitVec.toNat_add, BitVec.toNat_ofNat]
      omega
    rw [bootMapLoop, if_neg hlt]
    rfl
  | succ k ih =>
    obtain ⟨fuel, rfl⟩ : ∃ k, fuel = k + 1 := ⟨fuel - 1, by omega⟩
    have hlt : va + BitVec.ofNat 32 i < va + size := by
      rw [BitVec.lt_def, BitVec.toNat_add, BitVec.toNat_add, BitVec.toNat_ofNat]
      omega
    have hpD := hr i (by omega)
    have hw : pdx (va + BitVec.ofNat 32 i * pgsize) ≠ 957 := fun e => hD (e ▸ hpD)
    rcases h.walk_cases hw true with ⟨hn, hl, -⟩ | ⟨t, m, f, hwk, -, hrun⟩
    · -- an absent entry is counted, so the list is not empty
      have hl : l = [] := by simpa using hl
      have hpos : 0 < absent D s := Finset.card_pos.2 ⟨_, Finset.mem_filter.2 ⟨hpD, hn⟩⟩
      rw [hl, List.length_nil] at hle
      omega
    · have hround : Round s l (regionRound va pa perm i).1 (regionRound va pa perm i).2 _ m := .mk hwk
      obtain ⟨k1, hl1, -, hc1⟩ := hround.taken h hw hpD
      have hx := hround.fixed
      have hsucc : BitVec.ofNat 32 i + 1#32 = BitVec.ofNat 32 (i + 1) := by
        rw [BitVec.ofNat_add]
      obtain ⟨u, m', hu, hrs⟩ := ih (i := i + 1) fuel (hround.tables h hw) (by omega)
        (by rw [hl1, List.length_append] at hle; omega) (by omega) (Nat.mod_eq_of_lt (by omega))
      refine ⟨u, m', ?_, ?_⟩
      · rw [bootMapLoop, if_pos hlt, Prog.run_bind hrun]
        simp only [StateT.run_bind, run_stw, ok_bind, hsucc]
        rw [hx.kernPgdir] at hu
        exact hu
      · rw [List.range'_succ, List.map_cons]
        exact .cons hround hrs

/-- **boot_map_region** ends, in a state that the rounds of the region lead to. -/
theorem bootMapRegion_run (va size pa perm : Word) (h : Tables s l) (hadd : va.toNat + size.toNat < 4294967296) (hD : 957 ∉ D)
    (hr : ∀ r ∈ regionRounds va size pa perm, pdx r.1 ∈ D) (hle : absent D s ≤ l.length) :
    ∃ t m, (bootMapRegion s.kernPgdir va size pa perm).run s = .ok ((), t) ∧
      Rounds s l (regionRounds va size pa perm) t m := by
  rw [regionRounds, List.range_eq_range']
  refine bootMapLoop_run hadd hD size.toNat _ h (Nat.zero_add _) (fun j hj => ?_) hle (Nat.lt_succ_self _)
  exact hr _ (List.mem_map.2 ⟨j, List.mem_range.2 hj, rfl⟩)

end Run

/-! ## Regions -/

section Regions

variable {va size pa perm : Word} (ha : va.toNat % 4096 = 0) (hsz : va.toNat + size.toNat * 4096 ≤ 4294967296)
include ha hsz

theorem pgnum_regionRound {i : ℕ} (hi : i < size.toNat) : pgnum (regionRound va pa perm i).1 = pgnum va + i := by
  have hp : pgsize.toNat = 4096 := rfl
  rw [regionRound, pgnum_eq, pgnum_eq, BitVec.toNat_add, BitVec.toNat_mul, BitVec.toNat_ofNat, hp]
  omega

theorem mem_regionRounds {r : Word × Word} (hr : r ∈ regionRounds va size pa perm) :
    pgnum va ≤ pgnum r.1 ∧ pgnum r.1 < pgnum va + size.toNat ∧ present r.2 := by
  obtain ⟨i, hi, rfl⟩ := List.mem_map.1 hr
  rw [List.mem_range] at hi
  rw [pgnum_regionRound ha hsz hi]
  exact ⟨by omega, by omega, present_entry _ _⟩

/-- the translation that a region is overlaid on -/
theorem overlay_region (f : ℕ → Option Word) (n : ℕ) :
    overlay f ((regionRounds va size pa perm).map fun r => (pgnum r.1, r.2)) n =
      if pgnum va ≤ n ∧ n < pgnum va + size.toNat then
        some (entry (pa + BitVec.ofNat 32 (n - pgnum va) * pgsize) perm)
      else f n := by
  have hmap : ((regionRounds va size pa perm).map fun r => (pgnum r.1, r.2)) =
      (List.range size.toNat).map fun i => (pgnum va + i, entry (pa + BitVec.ofNat 32 i * pgsize) perm) := by
    rw [regionRounds, List.map_map]
    refine List.map_congr_left ?_
    intro i hi
    rw [Function.comp_apply, pgnum_regionRound ha hsz (List.mem_range.1 hi)]
    rfl
  rw [hmap, overlay_range]

end Regions

end Jos
