/-
The state as the self-tests of mem_init see it.

check_page_alloc, check_page and check_page_installed_pgdir take three pages off the free list; the first two put the
rest of it aside. Until they give it back, everything they do concerns these pages: they come and go at the front of the
list, the first one serves as a page table for the entries 0 and 1 of kern_pgdir, and its first two entries map pages of
the three. `View` records just that, and its operations are computed. `Shows o p rest s v`: state s looks like v, where p
numbers the three pages and rest is the list behind them, and is like the state o everywhere else. The lemmas say what
each function of pmap.c does to the view:
- `Shows.run_alloc`, `Shows.run_free`;
- `Shows.run_walk_new`, `Shows.run_insert_new`: page 0 becomes the page table;
- `Shows.run_insert`, `Shows.run_remove`: `View.insert` and `View.remove`.
-/
import Jos.Pmap.Refine

namespace Jos

open Jos.Lib

structure View where
  free : List (Fin 3)
  ref : Fin 3 → BitVec 16
  /-- entry i of kern_pgdir names page 0 as its page table, or is 0 -/
  dir : Fin 2 → Bool
  /-- entries 0 and 1 of the page table -/
  pte : Fin 2 → Option (Fin 3 × Word)
  /-- page j is filled with this word -/
  body : Fin 3 → Option Word

namespace View

theorem eq_iff {v w : View} :
    v = w ↔ v.free = w.free ∧ v.ref = w.ref ∧ v.dir = w.dir ∧ v.pte = w.pte ∧ v.body = w.body := by
  cases v
  cases w
  simp

instance : DecidableEq View := fun _ _ => decidable_of_iff _ eq_iff.symm

def setRef (v : View) (j : Fin 3) (r : BitVec 16) : View := { v with ref := Function.update v.ref j r }

/-- a store into the page table in page 0 -/
def setPte (v : View) (i : Fin 2) (e : Option (Fin 3 × Word)) : View :=
  { v with pte := Function.update v.pte i e, body := Function.update v.body 0 none }

def setDir (v : View) (i : Fin 2) (b : Bool) : View := { v with dir := Function.update v.dir i b }

def setFree (v : View) (l : List (Fin 3)) : View := { v with free := l }

def fill (v : View) (j : Fin 3) (w : Word) : View := { v with body := Function.update v.body j (some w) }

/-- page j, which is not the page table, has been written -/
def touch (v : View) (j : Fin 3) : View := { v with body := Function.update v.body j none }

/-- the view without the contents of the pages -/
def forget (v : View) : View := { v with body := fun _ => none }

def decref (v : View) (j : Fin 3) : View :=
  if v.ref j = 1#16 then (v.setRef j 0#16).setFree (j :: v.free) else v.setRef j (v.ref j - 1#16)

/-- page 0 leaves the list and becomes the table of entry i -/
def table (v : View) (i : Fin 2) : View :=
  { free := v.free.tail, ref := Function.update v.ref 0 (v.ref 0 + 1#16), dir := Function.update v.dir i true,
    pte := fun _ => none, body := Function.update v.body 0 none }

def unmap (v : View) (i : Fin 2) : View :=
  match v.pte i with
  | none => v
  | some (k, _) => (v.decref k).setPte i none

def insert (v : View) (i : Fin 2) (j : Fin 3) (perm : Word) : View :=
  ((v.setRef j (v.ref j + 1#16)).unmap i).setPte i (some (j, perm))

section Fields
variable (v : View) (i : Fin 2) (j : Fin 3) (r : BitVec 16) (e : Option (Fin 3 × Word)) (b : Bool) (l : List (Fin 3))

@[simp] theorem setRef_free : (v.setRef j r).free = v.free := rfl
@[simp] theorem setRef_ref : (v.setRef j r).ref = Function.update v.ref j r := rfl
@[simp] theorem setRef_dir : (v.setRef j r).dir = v.dir := rfl
@[simp] theorem setRef_pte : (v.setRef j r).pte = v.pte := rfl
@[simp] theorem setRef_body : (v.setRef j r).body = v.body := rfl
@[simp] theorem setPte_free : (v.setPte i e).free = v.free := rfl
@[simp] theorem setPte_ref : (v.setPte i e).ref = v.ref := rfl
@[simp] theorem setPte_dir : (v.setPte i e).dir = v.dir := rfl
@[simp] theorem setPte_pte : (v.setPte i e).pte = Function.update v.pte i e := rfl
@[simp] theorem setPte_body : (v.setPte i e).body = Function.update v.body 0 none := rfl
@[simp] theorem setDir_free : (v.setDir i b).free = v.free := rfl
@[simp] theorem setDir_ref : (v.setDir i b).ref = v.ref := rfl
@[simp] theorem setDir_dir : (v.setDir i b).dir = Function.update v.dir i b := rfl
@[simp] theorem setDir_pte : (v.setDir i b).pte = v.pte := rfl
@[simp] theorem setDir_body : (v.setDir i b).body = v.body := rfl
@[simp] theorem setFree_free : (v.setFree l).free = l := rfl
@[simp] theorem setFree_ref : (v.setFree l).ref = v.ref := rfl
@[simp] theorem setFree_dir : (v.setFree l).dir = v.dir := rfl
@[simp] theorem setFree_pte : (v.setFree l).pte = v.pte := rfl
@[simp] theorem setFree_body : (v.setFree l).body = v.body := rfl
@[simp] theorem fill_free (w : Word) : (v.fill j w).free = v.free := rfl
@[simp] theorem fill_ref (w : Word) : (v.fill j w).ref = v.ref := rfl
@[simp] theorem fill_dir (w : Word) : (v.fill j w).dir = v.dir := rfl
@[simp] theorem fill_pte (w : Word) : (v.fill j w).pte = v.pte := rfl
@[simp] theorem fill_body (w : Word) : (v.fill j w).body = Function.update v.body j (some w) := rfl
@[simp] theorem touch_dir : (v.touch j).dir = v.dir := rfl
@[simp] theorem touch_pte : (v.touch j).pte = v.pte := rfl
@[simp] theorem touch_body : (v.touch j).body = Function.update v.body j none := rfl
@[simp] theorem table_free : (v.table i).free = v.free.tail := rfl
@[simp] theorem table_ref : (v.table i).ref = Function.update v.ref 0 (v.ref 0 + 1#16) := rfl
@[simp] theorem table_dir : (v.table i).dir = Function.update v.dir i true := rfl
@[simp] theorem table_pte : (v.table i).pte = fun _ => none := rfl
@[simp] theorem table_body : (v.table i).body = Function.update v.body 0 none := rfl

end Fields

end View

/-! ## The views of the self-tests -/

/-- the three pages are held, and nothing is mapped -/
def held : View := ⟨[], ![0#16, 0#16, 0#16], ![false, false], fun _ => none, fun _ => none⟩

/-- page 0 serves as the page table; pages 1 and 2 are mapped at 0 and PGSIZE -/
def mapped : View := ⟨[], ![1#16, 1#16, 1#16], ![true, false], ![some (1, pteW), some (2, pteW)], fun _ => none⟩

/-- page 0 still serves as the page table, and nothing is mapped -/
def unmapped : View := ⟨[], ![1#16, 0#16, 0#16], ![true, false], fun _ => none, fun _ => none⟩

/-- page 0 serves as the page table, and nothing is mapped; the other two are free again -/
def unmappedFree : View := ⟨[2, 1], ![1#16, 0#16, 0#16], ![true, false], fun _ => none, fun _ => none⟩

/-! ## The states that look like a view -/

/-- the state with the three pages taken -/
def St.take (o : St) (p : Fin 3 → ℕ) : St := ((o.pop (p 0)).pop (p 1)).pop (p 2)

/-- the three pages in the state o -/
structure Three (o : St) (p : Fin 3 → ℕ) : Prop where
  npages_le : o.npages.toNat ≤ 65536
  inj : Function.Injective p
  lt : ∀ j, p j < o.npages.toNat
  ne_dir : ∀ j, p j ≠ o.dir

def pteWord (p : Fin 3 → ℕ) : Option (Fin 3 × Word) → Word
  | none => 0#32
  | some (j, perm) => entry (page2pa (p j)) perm

structure Shows (o : St) (p : Fin 3 → ℕ) (rest : List ℕ) (s : St) (v : View) : Prop where
  fixed : St.Fixed o s
  list : FreeList s (v.free.map p ++ rest)
  sep : ∀ j, p j ∉ rest
  link : ∀ j, j ∉ v.free → s.link (p j) = none
  ref : ∀ j, s.ref (p j) = v.ref j
  dir : ∀ i : Fin 2, s.mem o.dir i = if v.dir i then tableEntry (p 0) else 0#32
  pte : v.dir 0 = true → ∀ i : Fin 2, s.mem (p 0) i = pteWord p (v.pte i)
  body : ∀ j w, v.body j = some w → ∀ i < nptentries, s.mem (p j) i = w
  pages : ∀ i, (∀ j, i ≠ p j) → s.pages i = o.pages i
  mem : ∀ f i, (∀ j, f ≠ p j) → (f = o.dir → 2 ≤ i) → s.mem f i = o.mem f i
  log : ∃ as, allocs s.log = allocs o.log ++ as ∧ ∀ q ∈ as, ∃ j, q = p j

section

variable {o s : St} {p : Fin 3 → ℕ} {rest : List ℕ} {v : View} (hp : Three o p)

include hp in
theorem Three.lt_page (j : Fin 3) : p j < 1048576 := by
  have h1 := hp.lt j
  have h2 := hp.npages_le
  omega

include hp in
theorem Three.page_inj {i j : Fin 3} : p i = p j ↔ i = j := hp.inj.eq_iff

/-! ## Updates -/

include hp in
theorem Shows.setRef (h : Shows o p rest s v) (j : Fin 3) (r : BitVec 16) : Shows o p rest (s.setRef (p j) r) (v.setRef j r) where
  fixed := h.fixed.trans (St.fixed_setRef ..)
  list := h.list.congr rfl (by simp)
  sep := h.sep
  link := by simpa using h.link
  ref := fun k => by
    by_cases hk : k = j
    · simp [hk]
    · simpa [hk, hp.page_inj] using h.ref k
  dir := h.dir
  pte := h.pte
  body := h.body
  pages := fun i hi => by
    rw [← h.pages i hi]
    simp [St.setRef, hi j]
  mem := h.mem
  log := h.log

include hp in
theorem Shows.push (h : Shows o p rest s v) {j : Fin 3} (hj : j ∉ v.free) :
    Shows o p rest (s.push (p j)) (v.setFree (j :: v.free)) where
  fixed := h.fixed.trans (St.fixed_push ..)
  list := h.list.push fun hm => by
    rcases List.mem_append.1 hm with hm | hm
    · obtain ⟨k, hk, he⟩ := List.mem_map.1 hm
      exact hj (hp.inj he ▸ hk)
    · exact h.sep j hm
  sep := h.sep
  link := fun k hk => by
    rw [View.setFree_free, List.mem_cons, not_or] at hk
    simpa [hp.page_inj, hk.1] using h.link k hk.2
  ref := by simpa using h.ref
  dir := h.dir
  pte := h.pte
  body := h.body
  pages := fun i hi => by
    rw [← h.pages i hi]
    simp [St.push, St.setLink, St.setFree, hi j]
  mem := h.mem
  log := h.log

include hp in
theorem Shows.pop (h : Shows o p rest s v) {j : Fin 3} {fs : List (Fin 3)} (hf : v.free = j :: fs) :
    Shows o p rest (s.pop (p j)) (v.setFree fs) where
  fixed := h.fixed.trans (St.fixed_pop ..)
  list := by
    have hl := h.list
    rw [hf] at hl
    exact hl.pop
  sep := h.sep
  link := fun k hk => by
    by_cases hkj : k = j
    · simp [hkj]
    · have := h.link k (by rw [hf, List.mem_cons, not_or]; exact ⟨hkj, hk⟩)
      simpa [hp.page_inj, hkj] using this
  ref := by simpa using h.ref
  dir := h.dir
  pte := h.pte
  body := h.body
  pages := fun i hi => by
    rw [← h.pages i hi]
    simp [St.pop, St.setLink, St.setFree, St.emit, hi j]
  mem := h.mem
  log := by
    obtain ⟨as, ha, hm⟩ := h.log
    refine ⟨as ++ [p j], ?_, ?_⟩
    · rw [St.pop_log, allocs_append, ha, List.append_assoc]
      rfl
    · intro q hq
      rcases List.mem_append.1 hq with hq | hq
      · exact hm q hq
      · exact ⟨j, by simpa using hq⟩

include hp in
theorem Shows.decref (h : Shows o p rest s v) {j : Fin 3} (hj : j ∉ v.free) : Shows o p rest (s.decref (p j)) (v.decref j) := by
  unfold St.decref View.decref
  rw [h.ref j]
  split_ifs with h1
  · exact (h.setRef hp j 0#16).push hp hj
  · exact h.setRef hp j _

/-- an instruction that allocates and stores nothing -/
theorem Shows.invlpg (h : Shows o p rest s v) (va : Word) : Shows o p rest (s.emit (.invlpg va)) v where
  fixed := h.fixed.trans (St.fixed_emit ..)
  list := h.list.congr rfl (by simp)
  sep := h.sep
  link := h.link
  ref := h.ref
  dir := h.dir
  pte := h.pte
  body := h.body
  pages := h.pages
  mem := h.mem
  log := by
    obtain ⟨as, ha, hm⟩ := h.log
    exact ⟨as, by rw [St.emit_log, allocs_append, ha]; exact List.append_nil _, hm⟩

include hp in
/-- a store into the page table in page 0 -/
theorem Shows.storePte (h : Shows o p rest s v) (i : Fin 2) (e : Option (Fin 3 × Word)) :
    Shows o p rest (s.emit (.store (p 0) i (pteWord p e))) (v.setPte i e) where
  fixed := h.fixed.trans (St.fixed_emit ..)
  list := h.list.congr rfl (by simp)
  sep := h.sep
  link := h.link
  ref := h.ref
  dir := fun d => by
    rw [View.setPte_dir, ← h.dir d]
    simp [Ev.mem, Mem.set, (hp.ne_dir 0).symm]
  pte := fun hd d => by
    by_cases hdi : d = i
    · simp [Ev.mem, Mem.set, hdi]
    · have : ¬ ((d : ℕ) = i) := fun e => hdi (Fin.ext e)
      simpa [Ev.mem, Mem.set, hdi, this] using h.pte hd d
  body := fun j w hb d hd => by
    by_cases hj : j = 0
    · rw [hj, View.setPte_body, Function.update_self] at hb
      cases hb
    · rw [View.setPte_body, Function.update_of_ne hj] at hb
      have hne : p j ≠ p 0 := hp.inj.ne hj
      simpa [Ev.mem, Mem.set, hne] using h.body j w hb d hd
  pages := h.pages
  mem := fun f d hf hd => by
    rw [← h.mem f d hf hd]
    simp [Ev.mem, Mem.set, hf 0]
  log := by
    obtain ⟨as, ha, hm⟩ := h.log
    exact ⟨as, by rw [St.emit_log, allocs_append, ha]; exact List.append_nil _, hm⟩

include hp in
/-- entry i of kern_pgdir is cleared -/
theorem Shows.clearDir (h : Shows o p rest s v) (i : Fin 2) : Shows o p rest (s.emit (.store o.dir i 0#32)) (v.setDir i false) where
  fixed := h.fixed.trans (St.fixed_emit ..)
  list := h.list.congr rfl (by simp)
  sep := h.sep
  link := h.link
  ref := h.ref
  dir := fun d => by
    by_cases hdi : d = i
    · simp [Ev.mem, Mem.set, hdi]
    · have : ¬ ((d : ℕ) = i) := fun e => hdi (Fin.ext e)
      simpa [Ev.mem, Mem.set, hdi, this] using h.dir d
  pte := fun hd d => by
    have h0 : v.dir 0 = true := by
      rw [View.setDir_dir] at hd
      by_cases hi : (0 : Fin 2) = i
      · rw [hi, Function.update_self] at hd
        cases hd
      · rwa [Function.update_of_ne hi] at hd
    simpa [Ev.mem, Mem.set, hp.ne_dir 0] using h.pte h0 d
  body := fun j w hb d hd => by
    simpa [Ev.mem, Mem.set, hp.ne_dir j] using h.body j w hb d hd
  pages := h.pages
  mem := fun f d hf hd => by
    rw [← h.mem f d hf hd]
    have : ¬ (f = o.dir ∧ d = i) := by
      rintro ⟨e, rfl⟩
      have := hd e
      omega
    simp [Ev.mem, Mem.set, this]
  log := by
    obtain ⟨as, ha, hm⟩ := h.log
    exact ⟨as, by rw [St.emit_log, allocs_append, ha]; exact List.append_nil _, hm⟩

include hp in
/-- the frame of a page is filled, which is not the page table -/
theorem Shows.fill (h : Shows o p rest s v) (j : Fin 3) (hd : v.dir 0 = false ∨ j ≠ 0) (w : Word) :
    Shows o p rest (s.fill (p j) nptentries w) (v.fill j w) where
  fixed := h.fixed.trans (St.fixed_fill ..)
  list := h.list.congr rfl (by simp)
  sep := h.sep
  link := h.link
  ref := h.ref
  dir := fun d => by
    rw [View.fill_dir, ← h.dir d]
    simp [Mem.fill, (hp.ne_dir j).symm]
  pte := fun hd' d => by
    have hj : p 0 ≠ p j := hp.inj.ne (hd.resolve_left fun hf => by
      rw [View.fill_dir, hf] at hd'
      cases hd').symm
    simpa [Mem.fill, hj] using h.pte hd' d
  body := fun k w' hb d hd => by
    by_cases hk : k = j
    · rw [hk, View.fill_body, Function.update_self] at hb
      obtain rfl := Option.some.inj hb
      simp [Mem.fill, hk, hd]
    · rw [View.fill_body, Function.update_of_ne hk] at hb
      have hne : p k ≠ p j := hp.inj.ne hk
      simpa [Mem.fill, hne] using h.body k w' hb d hd
  pages := h.pages
  mem := fun f d hf hd => by
    rw [← h.mem f d hf hd]
    simp [Mem.fill, hf j]
  log := by
    obtain ⟨as, ha, hm⟩ := h.log
    exact ⟨as, by rw [St.fill_log, allocs_append, ha, allocs_fillEvs, List.append_nil], hm⟩

theorem Shows.forget (h : Shows o p rest s v) : Shows o p rest s v.forget :=
  { h with body := fun _ _ hb => by cases hb }

include hp in
/-- page 0 leaves the list, is cleared and linked as the table of entry i -/
theorem Shows.linkTable (h : Shows o p rest s v) {fs : List (Fin 3)} (hf : v.free = 0 :: fs) (i : Fin 2) :
    Shows o p rest (s.linkTable o.dir i (p 0)) (v.table i) where
  fixed := h.fixed.trans (St.fixed_linkTable ..)
  list := by
    have hl := (h.pop hp hf).list
    refine FreeList.congr (s := s.pop (p 0)) ?_ rfl fun q _ => by simp
    simpa [hf] using hl
  sep := h.sep
  link := fun k hk => by
    by_cases hk0 : k = 0
    · simp [hk0]
    · have := h.link k (by rw [View.table_free, hf] at hk; rw [hf, List.mem_cons, not_or]; exact ⟨hk0, hk⟩)
      simpa [hp.page_inj, hk0] using this
  ref := fun k => by
    by_cases hk0 : k = 0
    · simp [hk0, h.ref 0]
    · simpa [hp.page_inj, hk0] using h.ref k
  dir := fun d => by
    rw [St.linkTable_mem]
    by_cases hdi : d = i
    · simp [linkMem, Mem.set, hdi]
    · have hne : ¬ ((d : ℕ) = i) := fun e => hdi (Fin.ext e)
      simpa [linkMem, Mem.set, Mem.fill, hdi, hne, (hp.ne_dir 0).symm] using h.dir d
  pte := fun _ d => by
    have hlt : (d : ℕ) < nptentries := by
      have := d.isLt
      unfold nptentries
      omega
    simp [linkMem, Mem.set, Mem.fill, hp.ne_dir 0, hlt, pteWord]
  body := fun j w hb d hd => by
    by_cases hj : j = 0
    · rw [hj, View.table_body, Function.update_self] at hb
      cases hb
    · rw [View.table_body, Function.update_of_ne hj] at hb
      have hne : p j ≠ p 0 := hp.inj.ne hj
      simpa [linkMem, Mem.set, Mem.fill, hp.ne_dir j, hne] using h.body j w hb d hd
  pages := fun q hq => by
    rw [← h.pages q hq]
    simp [St.linkTable, St.pop, St.setLink, St.setRef, St.setFree, St.emit, St.fill, hq 0]
  mem := fun f d hf hd => by
    rw [← h.mem f d hf hd]
    have : ¬ (f = o.dir ∧ d = i) := by
      rintro ⟨e, rfl⟩
      have := hd e
      omega
    simp [linkMem, Mem.set, Mem.fill, this, hf 0]
  log := by
    obtain ⟨as, ha, hm⟩ := h.log
    refine ⟨as ++ [p 0], ?_, ?_⟩
    · rw [St.linkTable_log, allocs_append, allocs_append, allocs_append, allocs_fillEvs, ha]
      simp [allocs]
    · intro q hq
      rcases List.mem_append.1 hq with hq | hq
      · exact hm q hq
      · exact ⟨0, by simpa using hq⟩

/-! ## Functions of pmap.c -/

include hp in
theorem Shows.run_alloc (h : Shows o p rest s v) {j : Fin 3} {fs : List (Fin 3)} (hf : v.free = j :: fs) :
    ∃ t, (pageAlloc 0#32).run s = .ok (some (p j), t) ∧ Shows o p rest t (v.setFree fs) := by
  have hhead : s.pageFreeList = some (p j) := by
    have hl := h.list
    rw [hf] at hl
    exact hl.head
  exact ⟨_, run_pageAlloc_some hhead (by decide), h.pop hp hf⟩

theorem Shows.free_none (h : Shows o p [] s v) (hf : v.free = []) : s.pageFreeList = none := by
  have hl := h.list
  rw [hf] at hl
  exact chain_nil.1 hl

theorem Shows.run_alloc_none (h : Shows o p [] s v) (hf : v.free = []) (fl : Word) :
    (pageAlloc fl).run s = .ok (none, s) := run_pageAlloc_none (h.free_none hf)

include hp in
theorem Shows.run_free (h : Shows o p rest s v) {j : Fin 3} (hr : v.ref j = 0#16) (hj : j ∉ v.free) :
    ∃ t, (pageFree (p j)).run s = .ok ((), t) ∧ Shows o p rest t (v.setFree (j :: v.free)) :=
  ⟨_, run_pageFree (by rw [h.ref j, hr]) (h.link j hj), h.push hp hj⟩

include hp in
/-- entry PDX(va) names page 0 -/
theorem Shows.found (h : Shows o p rest s v) {va : Word} {i : Fin 2} (hi : pdx va = i) (hd : v.dir i = true) :
    Found s o.kernPgdir va (p 0) := by
  have he := h.dir i
  rw [if_pos hd] at he
  refine ⟨?_, by rw [h.fixed.npages]; exact hp.lt 0⟩
  rw [← St.dir.eq_def, tbl_eq_some, hi, he]
  exact ⟨present_tableEntry (hp.lt_page 0), pgnum_tableEntry (hp.lt_page 0)⟩

theorem Shows.absent (h : Shows o p rest s v) {va : Word} {i : Fin 2} (hi : pdx va = i) (hd : v.dir i = false) :
    tbl s.mem (frameOf o.kernPgdir) (pdx va) = none := by
  have he := h.dir i
  rw [hd] at he
  rw [← St.dir.eq_def, tbl_eq_none, hi, he]
  exact not_present_zero

include hp in
/-- pgdir_walk makes page 0 the page table of va -/
theorem Shows.run_walk_new (h : Shows o p rest s v) {va : Word} {i : Fin 2} (hi : pdx va = i) (hd : v.dir i = false)
    {fs : List (Fin 3)} (hf : v.free = 0 :: fs) :
    (pgdirWalk o.kernPgdir va true).run s = .ok (some ⟨p 0, ptx va⟩, s.linkTable o.dir i (p 0)) := by
  have hhead : s.pageFreeList = some (p 0) := by
    have hl := h.list
    rw [hf] at hl
    exact hl.head
  have hrun := run_walk_alloc (tbl_eq_none.1 (h.absent hi hd)) rfl hhead (hp.lt_page 0)
    (by rw [h.fixed.npages]; exact hp.lt 0)
  rwa [hi] at hrun

theorem present_pteWord {e : Option (Fin 3 × Word)} : present (pteWord p e) ↔ e ≠ none := by
  rcases e with - | ⟨j, perm⟩
  · simp [pteWord, not_present_zero]
  · simp [pteWord, present_entry]

include hp in
theorem Three.pgnum_pte {j : Fin 3} {perm : Word} (hperm : perm.toNat < 4096) :
    pgnum (pteWord p (some (j, perm))) = p j := by
  rw [pteWord, pgnum_entry (page2pa_aligned _) hperm, pgnum_page2pa (hp.lt_page j)]

/-- an entry of the view names a page off the list, with permissions below 4096 -/
def View.PteOk (v : View) (i : Fin 2) : Prop := ∀ e ∈ v.pte i, e.1 ∉ v.free ∧ e.2.toNat < 4096

instance (v : View) (i : Fin 2) : Decidable (v.PteOk i) :=
  decidable_of_iff ((v.pte i).all fun e => e.1 ∉ v.free ∧ e.2.toNat < 4096) (by simp [View.PteOk, Option.all_eq_true])

include hp in
/-- the entry is removed and its page loses a reference -/
theorem Shows.unmap (h : Shows o p rest s v) {i : Fin 2} (hok : v.PteOk i) {k : Fin 3} {perm : Word}
    (he : v.pte i = some (k, perm)) (va : Word) : Shows o p rest (s.unmap (p 0) i (p k) va) (v.unmap i) := by
  have hdec := h.decref hp (hok (k, perm) he).1
  have hst := hdec.storePte hp i none
  rw [View.unmap, he]
  exact hst.invlpg va

include hp in
theorem Shows.run_remove (h : Shows o p rest s v) (hd : v.dir 0 = true) (va : Word) (h0 : pdx va = 0) {i : Fin 2}
    (hi : ptx va = i) (hok : v.PteOk i) :
    ∃ t, (pageRemove o.kernPgdir va).run s = .ok ((), t) ∧ Shows o p rest t (v.unmap i) := by
  have hfound := h.found hp (i := 0) h0 hd
  have hw := h.pte hd i
  rcases he : v.pte i with - | ⟨k, perm⟩
  · rw [he] at hw
    refine ⟨s, run_remove_unmapped hfound ?_, by rwa [View.unmap, he]⟩
    rw [hi, hw]
    exact not_present_zero
  · rw [he] at hw
    obtain ⟨hk, hperm⟩ := hok (k, perm) he
    have hpg := hp.pgnum_pte (j := k) hperm
    refine ⟨_, ?_, h.unmap hp hok he va⟩
    have hrun := run_remove_mapped hfound (by rw [hi, hw]; exact present_entry _ _)
      (by rw [hi, hw, hpg, h.fixed.npages]; exact hp.lt k) (fun _ => by rw [hi, hw, hpg]; exact h.link k hk)
    rwa [hi, hw, hpg] at hrun

include hp in
/-- page_insert, from the state t that its pgdir_walk leaves -/
theorem Shows.run_insert_from (h : Shows o p rest s v) (hd : v.dir 0 = true) {r va : Word} {u : St} (h0 : pdx va = 0)
    {i : Fin 2} (hi : ptx va = i) (hok : v.PteOk i) (j : Fin 3)
    (hwalk : (pgdirWalk o.kernPgdir va true).run u = .ok (some ⟨p 0, ptx va⟩, s)) :
    ∃ t, (pageInsert o.kernPgdir (p j) va r).run u = .ok (0, t) ∧ Shows o p rest t (v.insert i j r) := by
  have hfound := h.found hp (i := 0) h0 hd
  have hw := h.pte hd i
  have hinc := h.setRef hp j (v.ref j + 1#16)
  refine ⟨_, run_insert hwalk hfound fun hpres => ?_, ?_⟩
  · rw [hi, hw, present_pteWord] at hpres
    obtain ⟨⟨k, perm⟩, he⟩ := Option.ne_none_iff_exists'.1 hpres
    obtain ⟨hk, hperm⟩ := hok (k, perm) he
    rw [hi, hw, he, hp.pgnum_pte hperm, h.fixed.npages]
    exact ⟨hp.lt k, fun _ => h.link k hk⟩
  · have hrest : Shows o p rest (if present (s.mem (p 0) i) then
        (s.setRef (p j) (s.ref (p j) + 1#16)).unmap (p 0) i (pgnum (s.mem (p 0) i)) va
        else s.setRef (p j) (s.ref (p j) + 1#16)) ((v.setRef j (v.ref j + 1#16)).unmap i) := by
      rw [hw, h.ref j]
      rcases he : v.pte i with - | ⟨k, perm⟩
      · rw [if_neg (by rw [present_pteWord]; simp), View.unmap, View.setRef_pte, he]
        exact hinc
      · rw [if_pos (by rw [present_pteWord]; simp), hp.pgnum_pte (hok (k, perm) he).2]
        exact hinc.unmap hp hok he va
    have hst := hrest.storePte hp i (some (j, r))
    rw [hi]
    exact hst

include hp in
theorem Shows.run_insert (h : Shows o p rest s v) (hd : v.dir 0 = true) (va : Word) (h0 : pdx va = 0) {i : Fin 2}
    (hi : ptx va = i) (hok : v.PteOk i) (j : Fin 3) (r : Word) :
    ∃ t, (pageInsert o.kernPgdir (p j) va r).run s = .ok (0, t) ∧ Shows o p rest t (v.insert i j r) :=
  h.run_insert_from hp hd h0 hi hok j ((h.found hp (i := 0) h0 hd).walk true)

include hp in
/-- page_insert with page 0 as the new page table -/
theorem Shows.run_insert_new (h : Shows o p rest s v) (hd : v.dir 0 = false) {fs : List (Fin 3)} (hf : v.free = 0 :: fs)
    (va : Word) (h0 : pdx va = 0) {i : Fin 2} (hi : ptx va = i) (j : Fin 3) (r : Word) :
    ∃ t, (pageInsert o.kernPgdir (p j) va r).run s = .ok (0, t) ∧ Shows o p rest t ((v.table 0).insert i j r) :=
  (h.linkTable hp hf 0).run_insert_from hp rfl h0 hi (fun _ he => by cases he) j
    (h.run_walk_new hp (i := 0) h0 hd hf)

theorem Shows.run_insert_noMem (h : Shows o p [] s v) (hf : v.free = []) {va : Word} {i : Fin 2} (hi : pdx va = i)
    (hd : v.dir i = false) (j : Fin 3) (r : Word) : (pageInsert o.kernPgdir (p j) va r).run s = .ok (-eNoMem, s) :=
  Jos.run_insert_noMem (h.absent hi hd) (h.free_none hf)

include hp in
theorem Shows.run_va2pa (h : Shows o p rest s v) (hd : v.dir 0 = true) {va : Word} (h0 : pdx va = 0) {i : Fin 2}
    (hi : ptx va = i) (hok : v.PteOk i) :
    (checkVa2pa o.kernPgdir va).run s = .ok (((v.pte i).map fun e => page2pa (p e.1)).getD (~~~0#32), s) := by
  have hfound := h.found hp (i := 0) h0 hd
  obtain ⟨hpres, hpg⟩ := tbl_eq_some.1 hfound.1
  have hw := h.pte hd i
  have hk := run_kaddr (s := s) (pteAddr (s.mem (frameOf o.kernPgdir) (pdx va))) (by
    rw [pgnum_pteAddr, hpg]; exact hfound.2)
  rcases he : v.pte i with - | ⟨k, perm⟩
  · rw [he] at hw
    simp [checkVa2pa, hpres, hk, frameOf_add, pgnum_pteAddr, hpg, hi, hw, pteWord, not_present_zero,
      -bind_pure_comp]
  · rw [he] at hw
    have haddr : pteAddr (pteWord p (some (k, perm))) = page2pa (p k) :=
      pteAddr_entry (page2pa_aligned _) (hok (k, perm) he).2
    have hpte : present (pteWord p (some (k, perm))) := present_entry _ _
    simp [checkVa2pa, hpres, hk, frameOf_add, pgnum_pteAddr, hpg, hi, hw, haddr, hpte, -bind_pure_comp]

end

end Jos
