/-
check_page_free_list of kern/pmap.c.

With only_low_memory it first moves the pages below 4MB to the front: two lists are built at their tails, through
pointers to pointers `tp[2]`, and then joined. Results:
- `relink_spec`: the relinking is a stable partition of the free list;
- `checkPageFreeList_iff`: the function returns exactly when every free page passes its assertions; the list is then the
  partition, and only free frames have been written;
- `no_wrap_after_check`: after mem_init's boot allocations and check_page_free_list(1) npages is at most 65536, so the
  kernel virtual addresses of all pages lie above KERNBASE.
-/
import Jos.Pmap.Startup

namespace Jos

open Jos.Lib

/-! ## The function -/

/-- a `struct PageInfo **` of the relinking loop: &pp1 or &pp2, or the pp_link of a page -/
inductive TailRef where
  | head (pagetype : Bool)
  | link (i : ℕ)
deriving DecidableEq, Repr

/-- the locals of the relinking loop: pp1 and pp2, and `tp` -/
structure Relink where
  pp : Bool → Option ℕ
  tp : Bool → TailRef

/-- `*ref = v` -/
def TailRef.store (r : Relink) (v : Option ℕ) : TailRef → K Relink
  | .head pagetype => return { r with pp := Function.update r.pp pagetype v }
  | .link i => do
    stLink i v
    return r

/-- `PDX(page2pa(pp)) >= pdx_limit` -/
def pagetype (pdxLimit pp : ℕ) : Bool := decide (pdxLimit ≤ pdx (page2pa pp))

def relinkLoop (pdxLimit : ℕ) : ℕ → Option ℕ → Relink → K Relink
  | 0, _, _ => throw .diverge
  | _ + 1, none, r => return r
  | fuel + 1, some pp, r => do
    let r ← (r.tp (pagetype pdxLimit pp)).store r (some pp)
    relinkLoop pdxLimit fuel (← ldLink pp) { r with tp := Function.update r.tp (pagetype pdxLimit pp) (.link pp) }

/-- the relinking; pp holds what is in pp1 and pp2, which are not initialised -/
def relinkFrom (pp : Bool → Option ℕ) (pdxLimit : ℕ) : K Unit := do
  let r ← relinkLoop pdxLimit ((← get).npages.toNat + 1) (← ldFree) ⟨pp, .head⟩
  let r ← (r.tp true).store r none
  let r ← (r.tp false).store r (r.pp true)
  stFree (r.pp false)

/-- pp1 and pp2 are written before they are read: `relinkFrom_spec` -/
def relink (pdxLimit : ℕ) : K Unit := relinkFrom (fun _ => none) pdxLimit

/-- `memset(page2kva(pp), 0x97, 128)` for the pages below the limit -/
def scribble (pdxLimit : ℕ) : ℕ → Option ℕ → K Unit
  | 0, _ => throw .diverge
  | _ + 1, none => return ()
  | fuel + 1, some pp => do
    if pdx (page2pa pp) < pdxLimit then
      memset (← page2kva pp) 0x97 32
    scribble pdxLimit fuel (← ldLink pp)

/-- `page2pa(pp) < EXTPHYSMEM || (char *) page2kva(pp) >= first_free_page` -/
def aboveKernel (firstFreePage : Word) (pp : ℕ) : K Bool := do
  if page2pa pp < extphysmem then return true
  else return decide (firstFreePage ≤ (← page2kva pp))

/-- the assertions about one page of the list -/
def checkFreePage (firstFreePage : Word) (pp : ℕ) : K Unit := do
  kassert "pp < pages + npages" (pp < (← get).npages.toNat)
  kassert "page2pa(pp) != 0" (page2pa pp ≠ 0#32)
  kassert "page2pa(pp) != IOPHYSMEM" (page2pa pp ≠ iophysmem)
  kassert "page2pa(pp) != EXTPHYSMEM - PGSIZE" (page2pa pp ≠ extphysmem - pgsize)
  kassert "page2pa(pp) != EXTPHYSMEM" (page2pa pp ≠ extphysmem)
  kassert "page2pa(pp) < EXTPHYSMEM || (char *) page2kva(pp) >= first_free_page"
    ((← aboveKernel firstFreePage pp) = true)

/-- nfree_basemem and nfree_extmem are counted along the list -/
def checkFreePages (firstFreePage : Word) : ℕ → Option ℕ → ℤ → ℤ → K (ℤ × ℤ)
  | 0, _, _, _ => throw .diverge
  | _ + 1, none, nfreeBasemem, nfreeExtmem => return (nfreeBasemem, nfreeExtmem)
  | fuel + 1, some pp, nfreeBasemem, nfreeExtmem => do
    checkFreePage firstFreePage pp
    if page2pa pp < extphysmem then
      checkFreePages firstFreePage fuel (← ldLink pp) (nfreeBasemem + 1) nfreeExtmem
    else
      checkFreePages firstFreePage fuel (← ldLink pp) nfreeBasemem (nfreeExtmem + 1)

/-- the part of check_page_free_list behind the relinking -/
def checkPages (kend : Word) (pdxLimit : ℕ) : K Unit := do
  let n := (← get).npages.toNat + 1
  scribble pdxLimit n (← ldFree)
  let firstFreePage ← bootAlloc kend 0#32
  let (nfreeBasemem, nfreeExtmem) ← checkFreePages firstFreePage n (← ldFree) 0 0
  kassert "nfree_basemem > 0" (0 < nfreeBasemem)
  kassert "nfree_extmem > 0" (0 < nfreeExtmem)

def checkPageFreeList (kend : Word) (onlyLowMemory : Bool) : K Unit := do
  if (← ldFree) = none then panic "'page_free_list' is a null pointer!"
  if onlyLowMemory then
    relink 1
    checkPages kend 1
  else
    checkPages kend npdentries

/-! ## Relinking -/

/-- only pp_link of the pages of l has changed -/
structure LinksOnly (l : List ℕ) (s t : St) : Prop extends St.Fixed s t where
  mem : t.mem = s.mem
  log : t.log = s.log
  ref : t.ref = s.ref
  links : ∀ i, i ∉ l → t.link i = s.link i

theorem LinksOnly.refl (l : List ℕ) (s : St) : LinksOnly l s s :=
  ⟨St.Fixed.refl s, rfl, rfl, rfl, fun _ _ => rfl⟩

theorem LinksOnly.trans {l : List ℕ} {s t u : St} (h1 : LinksOnly l s t) (h2 : LinksOnly l t u) : LinksOnly l s u :=
  ⟨h1.toFixed.trans h2.toFixed, h2.mem.trans h1.mem, h2.log.trans h1.log, h2.ref.trans h1.ref,
    fun i hi => (h2.links i hi).trans (h1.links i hi)⟩

theorem LinksOnly.mono {l m : List ℕ} {s t : St} (h : LinksOnly l s t) (hs : ∀ i ∈ l, i ∈ m) : LinksOnly m s t :=
  { h with links := fun i hi => h.links i fun hl => hi (hs i hl) }

/-- a list under construction: `ref` is the cell its end hangs on, the link of its last node or the head -/
inductive Tail (next : ℕ → Option ℕ) (hd : Option ℕ) (t : Bool) : TailRef → List ℕ → Prop where
  | empty : Tail next hd t (.head t) []
  | node {l : List ℕ} {x : ℕ} (h : Seg next hd l (some x)) : Tail next hd t (.link x) (l ++ [x])

def TailRef.locals (r : Relink) (v : Option ℕ) : TailRef → Relink
  | .head t => { r with pp := Function.update r.pp t v }
  | .link _ => r

def TailRef.write (s : St) (v : Option ℕ) : TailRef → St
  | .head _ => s
  | .link i => s.setLink i v

theorem TailRef.run_store (ref : TailRef) (r : Relink) (v : Option ℕ) (s : St) :
    (ref.store r v).run s = .ok (ref.locals r v, ref.write s v) := by cases ref <;> rfl

section Relink

variable {s : St} {r : Relink} {t : Bool} {l : List ℕ}

@[simp] theorem TailRef.locals_tp (ref : TailRef) (v : Option ℕ) : (ref.locals r v).tp = r.tp := by cases ref <;> rfl

/-- `*tp[t] = v` ends list t with v -/
theorem Tail.close (h : Tail s.link (r.pp t) t (r.tp t) l) (hl : l.Nodup) (v : Option ℕ) :
    Seg ((r.tp t).write s v).link (((r.tp t).locals r v).pp t) l v := by
  cases hr : r.tp t with
  | head t' =>
    rw [hr] at h
    cases h
    simp [TailRef.locals, Seg]
  | link x =>
    rw [hr] at h
    cases h with
    | node h =>
      have hx : x ∉ _ := fun hx => List.disjoint_of_nodup_append hl hx List.mem_cons_self
      simpa [TailRef.write, TailRef.locals] using h.extend hx v

/-- and it writes the last link of list t at most -/
theorem Tail.close_links (h : Tail s.link (r.pp t) t (r.tp t) l) (v : Option ℕ) :
    LinksOnly l s ((r.tp t).write s v) := by
  cases hr : r.tp t with
  | head t' => exact LinksOnly.refl l s
  | link x =>
    rw [hr] at h
    cases h with
    | node h =>
      refine ⟨St.fixed_setLink .., rfl, rfl, by simp [TailRef.write], fun i hi => ?_⟩
      have : i ≠ x := fun e => hi (by simp [e])
      simp [TailRef.write, this]

/-- and it leaves the other list alone -/
theorem Tail.close_other (h : Tail s.link (r.pp t) t (r.tp t) l) (v : Option ℕ) {t' : Bool} (ht : t' ≠ t) :
    ((r.tp t).locals r v).pp t' = r.pp t' := by
  cases hr : r.tp t with
  | head t'' =>
    rw [hr] at h
    cases h
    simp [TailRef.locals, ht]
  | link x => rfl

theorem Tail.congr {next next' : ℕ → Option ℕ} {hd : Option ℕ} {ref : TailRef} (h : Tail next hd t ref l)
    (hn : ∀ x ∈ l, next' x = next x) : Tail next' hd t ref l := by
  cases h with
  | empty => exact .empty
  | node h => exact .node (h.congr fun x hx => hn x (List.mem_append_left _ hx))

/-- the two lists under construction and the rest of the free list, which share no page -/
structure Built (s : St) (r : Relink) (part : Bool → List ℕ) (cur : Option ℕ) (rest : List ℕ) : Prop where
  tail : ∀ t, Tail s.link (r.pp t) t (r.tp t) (part t)
  chain : Chain s.link cur rest
  nodup : ∀ t, (part t).Nodup
  sep : ∀ t t', t ≠ t' → ∀ x ∈ part t, x ∉ part t'
  sep_rest : ∀ t, ∀ x ∈ part t, x ∉ rest

/-- one round: the page joins the list of its type -/
theorem Built.step {part : Bool → List ℕ} {p : ℕ} {rest : List ℕ} (h : Built s r part (some p) (p :: rest)) (t : Bool) :
    Built ((r.tp t).write s (some p))
      { (r.tp t).locals r (some p) with tp := Function.update ((r.tp t).locals r (some p)).tp t (.link p) }
      (Function.update part t (part t ++ [p])) (((r.tp t).write s (some p)).link p) rest := by
  have hlinks := (h.tail t).close_links (some p)
  have hpr : p ∉ rest := (List.nodup_cons.1 h.chain.nodup).1
  have hp : ∀ t', p ∉ part t' := fun t' hp => h.sep_rest t' p hp List.mem_cons_self
  have hrest : ∀ x ∈ rest, ∀ t', x ∉ part t' := fun x hx t' hx' => h.sep_rest t' x hx' (List.mem_cons_of_mem p hx)
  refine ⟨?_, ?_, ?_, ?_, ?_⟩
  · intro t'
    by_cases ht : t' = t
    · subst ht
      simp only [Function.update_self]
      exact .node ((h.tail t').close (h.nodup t') (some p))
    · simp only [TailRef.locals_tp, Function.update_of_ne ht]
      rw [(h.tail t).close_other (some p) ht]
      exact (h.tail t').congr fun x hx => hlinks.links x (h.sep t' t ht x hx)
  · rw [hlinks.links p (hp t)]
    exact h.chain.2.congr fun x hx => hlinks.links x (hrest x hx t)
  · intro t'
    by_cases ht : t' = t
    · subst ht
      rw [Function.update_self]
      exact List.Nodup.append (h.nodup t') (List.nodup_singleton p) (by simpa using hp t')
    · rw [Function.update_of_ne ht]
      exact h.nodup t'
  · intro t1 t2 ht x hx
    by_cases h1 : t1 = t
    · rw [h1, Function.update_self] at hx
      rw [Function.update_of_ne (fun e => ht (h1.trans e.symm))]
      rcases List.mem_append.1 hx with hx | hx
      · exact h.sep t t2 (fun e => ht (h1.trans e)) x hx
      · rw [List.mem_singleton.1 hx]
        exact hp t2
    · rw [Function.update_of_ne h1] at hx
      by_cases h2 : t2 = t
      · rw [h2, Function.update_self, List.mem_append, List.mem_singleton, not_or]
        exact ⟨h.sep t1 t h1 x hx, fun e => hp t1 (e ▸ hx)⟩
      · rw [Function.update_of_ne h2]
        exact h.sep t1 t2 ht x hx
  · intro t' x hx
    by_cases ht : t' = t
    · rw [ht, Function.update_self] at hx
      rcases List.mem_append.1 hx with hx | hx
      · exact fun hr => hrest x hr t hx
      · rw [List.mem_singleton.1 hx]
        exact hpr
    · rw [Function.update_of_ne ht] at hx
      exact fun hr => hrest x hr t' hx

/-- the loop appends the rest of the free list, type by type, to the two lists -/
theorem relinkLoop_spec (lim : ℕ) (rest : List ℕ) {s : St} {r : Relink} {part : Bool → List ℕ} {cur : Option ℕ}
    (fuel : ℕ) (h : Built s r part cur rest) (hf : rest.length < fuel) {l : List ℕ} (hl : ∀ t, ∀ x ∈ part t, x ∈ l)
    (hl' : ∀ x ∈ rest, x ∈ l) :
    ∃ r' s', (relinkLoop lim fuel cur r).run s = .ok (r', s') ∧
      Built s' r' (fun t => part t ++ rest.filter fun i => pagetype lim i = t) none [] ∧ LinksOnly l s s' := by
  induction rest generalizing s r part cur fuel with
  | nil =>
    obtain ⟨fuel, rfl⟩ : ∃ k, fuel = k + 1 := ⟨fuel - 1, by simp at hf; omega⟩
    obtain rfl : cur = none := h.chain
    refine ⟨r, s, rfl, ?_, LinksOnly.refl _ s⟩
    simpa using h
  | cons p rest ih =>
    obtain ⟨fuel, rfl⟩ : ∃ k, fuel = k + 1 := ⟨fuel - 1, by simp at hf; omega⟩
    obtain rfl : cur = some p := h.chain.1
    have hpl : ∀ t, ∀ x ∈ Function.update part (pagetype lim p) (part (pagetype lim p) ++ [p]) t, x ∈ l := by
      intro t x hx
      by_cases ht : t = pagetype lim p
      · rw [ht, Function.update_self] at hx
        rcases List.mem_append.1 hx with hx | hx
        · exact hl _ x hx
        · exact hl' x (by rw [List.mem_singleton.1 hx]; exact List.mem_cons_self)
      · rw [Function.update_of_ne ht] at hx
        exact hl t x hx
    obtain ⟨r', s', hrun, hb, hlo⟩ := ih fuel (h.step (pagetype lim p)) (by simp at hf; omega) hpl
      fun x hx => hl' x (List.mem_cons_of_mem p hx)
    refine ⟨r', s', ?_, ?_, (((h.tail _).close_links (some p)).mono (hl _)).trans hlo⟩
    · rw [relinkLoop, Prog.run_bind (TailRef.run_store ..), Prog.run_bind (run_ldLink ..)]
      exact hrun
    · have hpart : (fun t => Function.update part (pagetype lim p) (part (pagetype lim p) ++ [p]) t ++
          rest.filter fun i => pagetype lim i = t) =
          fun t => part t ++ (p :: rest).filter fun i => pagetype lim i = t := by
        funext t
        by_cases ht : pagetype lim p = t
        · subst ht
          simp
        · rw [Function.update_of_ne (Ne.symm ht), List.filter_cons_of_neg (by simpa using ht)]
      rwa [← hpart]

/-- the free list with the pages below the limit first -/
def lowFirst (lim : ℕ) (l : List ℕ) : List ℕ :=
  (l.filter fun i => pagetype lim i = false) ++ l.filter fun i => pagetype lim i = true

theorem mem_lowFirst {lim : ℕ} {i : ℕ} : i ∈ lowFirst lim l ↔ i ∈ l := by
  simp only [lowFirst, List.mem_append, List.mem_filter, decide_eq_true_eq]
  cases pagetype lim i <;> simp

/-- the relinking, whatever pp1 and pp2 held: the pages below the limit first, both parts in their old order -/
theorem relinkFrom_spec (pp : Bool → Option ℕ) (lim : ℕ) {l : List ℕ} (h : FreeList s l)
    (hl : l.length ≤ s.npages.toNat) :
    ∃ t, (relinkFrom pp lim).run s = .ok ((), t) ∧ FreeList t (lowFirst lim l) ∧ LinksOnly l s t := by
  have hb : Built s ⟨pp, .head⟩ (fun _ => []) s.pageFreeList l :=
    ⟨fun _ => .empty, h, fun _ => List.nodup_nil, by simp, by simp⟩
  obtain ⟨r, u, hrun, hbu, hlo⟩ := relinkLoop_spec lim l _ hb (Nat.lt_succ_of_le hl) (l := l) (by simp) fun _ hx => hx
  simp only [List.nil_append] at hbu
  -- the second list ends in NULL, and the first one in the second
  have h2 := (hbu.tail true).close (hbu.nodup true) none
  have hlo2 := (hbu.tail true).close_links none
  have hpp := (hbu.tail true).close_other none Bool.false_ne_true
  have hrun2 := (r.tp true).run_store r none u
  have htp := TailRef.locals_tp (r := r) (r.tp true) none
  set r1 := (r.tp true).locals r none
  set u1 := (r.tp true).write u none
  have ht1 : Tail u1.link (r1.pp false) false (r1.tp false) (l.filter fun i => pagetype lim i = false) := by
    rw [htp, hpp]
    exact (hbu.tail false).congr fun x hx => hlo2.links x (hbu.sep false true (by simp) x hx)
  have h1 := ht1.close (hbu.nodup false) (r1.pp true)
  have hlo1 := ht1.close_links (r1.pp true)
  have hrun1 := (r1.tp false).run_store r1 (r1.pp true) u1
  have h2' := h2.congr fun x hx => hlo1.links x (hbu.sep true false (by simp) x hx)
  have hsub : ∀ t, ∀ i ∈ l.filter fun i => pagetype lim i = t, i ∈ l := fun t i hi => List.mem_of_mem_filter hi
  have hall := (hlo.trans (hlo2.mono (hsub true))).trans (hlo1.mono (hsub false))
  set r2 := (r1.tp false).locals r1 (r1.pp true)
  set u2 := (r1.tp false).write u1 (r1.pp true)
  refine ⟨u2.setFree (r2.pp false), ?_, (seg_append ..).2 ⟨_, h1, h2'⟩, ?_⟩
  · rw [relinkFrom, Prog.run_bind (run_get s), Prog.run_bind (run_ldFree s), Prog.run_bind hrun, Prog.run_bind hrun2, Prog.run_bind hrun1, run_stFree]
  · exact ⟨hall.toFixed.trans (St.fixed_setFree ..), hall.mem, hall.log, hall.ref, hall.links⟩

theorem relink_spec (lim : ℕ) {l : List ℕ} (h : FreeList s l) (hl : l.length ≤ s.npages.toNat) :
    ∃ t, (relink lim).run s = .ok ((), t) ∧ FreeList t (lowFirst lim l) ∧ LinksOnly l s t :=
  relinkFrom_spec (fun _ => none) lim h hl

theorem lowFirst_perm (lim : ℕ) (l : List ℕ) : (lowFirst lim l).Perm l := by
  have h : (l.filter fun i => pagetype lim i = true) = l.filter fun i => !decide (pagetype lim i = false) :=
    List.filter_congr fun i _ => by cases pagetype lim i <;> rfl
  rw [lowFirst, h]
  exact List.filter_append_perm _ l

theorem length_le_npages (hd : l.Nodup) (hl : ∀ p ∈ l, p < s.npages.toNat) : l.length ≤ s.npages.toNat := by
  have h : l ⊆ List.range s.npages.toNat := fun p hp => List.mem_range.2 (hl p hp)
  simpa using (hd.subperm h).length_le

/-- **The relinking of check_page_free_list(1) is a stable partition** of any free list, whatever pp1 and pp2 held. -/
theorem relink_stable_partition (pp : Bool → Option ℕ) (l : List ℕ) (s : St) (h : FreeList s l)
    (hl : ∀ p ∈ l, p < s.npages.toNat) :
    ∃ t m, (relinkFrom pp 1).run s = .ok ((), t) ∧ FreeList t m ∧
      m = (l.filter fun i => pdx (page2pa i) < 1) ++ (l.filter fun i => ¬ pdx (page2pa i) < 1) ∧
      m.Perm l ∧ m.Nodup ∧ LinksOnly l s t := by
  obtain ⟨t, ht, hm, hlo⟩ := relinkFrom_spec pp 1 h (length_le_npages (Chain.nodup h) hl)
  refine ⟨t, lowFirst 1 l, ht, hm, ?_, lowFirst_perm 1 l, Chain.nodup hm, hlo⟩
  have hlow : (l.filter fun i => pagetype 1 i = false) = l.filter fun i => pdx (page2pa i) < 1 :=
    List.filter_congr fun i _ => by simp [pagetype]
  have hhigh : (l.filter fun i => pagetype 1 i = true) = l.filter fun i => ¬ pdx (page2pa i) < 1 :=
    List.filter_congr fun i _ => by simp only [pagetype, decide_eq_true_eq, Nat.not_lt]
  rw [lowFirst, hlow, hhigh]

/-- three free pages, two of them below 4MB -/
def threeFreeSt : St :=
  { preInitSt 2048#32 with
    pageFreeList := some 3
    pages := fun i => if i = 3 then ⟨some 1280, 0⟩ else if i = 1280 then ⟨some 2, 0⟩ else ⟨none, 0⟩ }

theorem relink_stable_partition_three :
    ∃ t, (relinkFrom (fun _ => some 7) 1).run threeFreeSt = .ok ((), t) ∧ FreeList t [3, 2, 1280] := by
  obtain ⟨t, m, ht, hm, rfl, -⟩ :=
    relink_stable_partition (fun _ => some 7) [3, 1280, 2] threeFreeSt ⟨rfl, rfl, rfl, rfl⟩ (by decide)
  exact ⟨t, ht, hm⟩

end Relink

/-! ## The checks -/

/-- what check_page_free_list leaves of the free list l: the list m, and writes into the frames of l -/
structure Checked (l m : List ℕ) (s t : St) : Prop extends St.Fixed s t where
  list : FreeList t m
  ref : t.ref = s.ref
  links : ∀ i, i ∉ l → t.link i = s.link i
  mem : ∀ f, (∀ p ∈ l, f ≠ p % 1048576) → t.mem f = s.mem f
  allocs : allocs t.log = Jos.allocs s.log

/-- the assertions about one page -/
structure PassesCheck (s : St) (first : Word) (p : ℕ) : Prop where
  lt : p < s.npages.toNat
  ne_zero : page2pa p ≠ 0#32
  ne_iophysmem : page2pa p ≠ iophysmem
  ne_below : page2pa p ≠ extphysmem - pgsize
  ne_extphysmem : page2pa p ≠ extphysmem
  above : page2pa p < extphysmem ∨ first ≤ page2pa p + kernbase

section Checks

variable {s t : St} {l : List ℕ}

theorem scribble_spec (lim : ℕ) (l : List ℕ) {s : St} {cur : Option ℕ} (fuel : ℕ) (h : Chain s.link cur l)
    (hl : ∀ p ∈ l, p < s.npages.toNat) (hf : l.length < fuel) :
    ∃ t, (scribble lim fuel cur).run s = .ok ((), t) ∧ St.Fixed s t ∧ t.pages = s.pages ∧
      t.pageFreeList = s.pageFreeList ∧ (∀ f, (∀ p ∈ l, f ≠ p % 1048576) → t.mem f = s.mem f) ∧
      allocs t.log = allocs s.log := by
  induction l generalizing s cur fuel with
  | nil =>
    obtain ⟨fuel, rfl⟩ : ∃ k, fuel = k + 1 := ⟨fuel - 1, by simp at hf; omega⟩
    obtain rfl : cur = none := h
    exact ⟨s, rfl, St.Fixed.refl s, rfl, rfl, fun _ _ => rfl, rfl⟩
  | cons p l ih =>
    obtain ⟨fuel, rfl⟩ : ∃ k, fuel = k + 1 := ⟨fuel - 1, by simp at hf; omega⟩
    obtain rfl : cur = some p := h.1
    have hp := hl p List.mem_cons_self
    by_cases hlow : pdx (page2pa p) < lim
    · have hframe : frameOf (page2pa p + kernbase) = p % 1048576 := by rw [frameOf_add, pgnum_page2pa_mod]
      obtain ⟨t, ht, hx, hpg, hfree, hmem, hlog⟩ := ih (s := s.fill (p % 1048576) 32 (byteWord (0x97 &&& 0xFF)))
        fuel h.2 (fun q hq => hl q (List.mem_cons_of_mem p hq)) (by simp at hf; omega)
      refine ⟨t, ?_, (St.fixed_fill ..).trans hx, hpg, hfree, ?_, ?_⟩
      · simp only [scribble, hlow, if_true, StateT.run_bind, run_page2kva hp, ok_bind, run_memset, hframe, run_ldLink,
          St.fill_link]
        exact ht
      · intro f hf
        rw [hmem f fun q hq => hf q (List.mem_cons_of_mem p hq)]
        have hne := hf p List.mem_cons_self
        funext i
        simp [Mem.fill, hne]
      · rw [hlog, St.fill_log, allocs_append, allocs_fillEvs, List.append_nil]
    · obtain ⟨t, ht, hx, hpg, hfree, hmem, hlog⟩ := ih fuel h.2
        (fun q hq => hl q (List.mem_cons_of_mem p hq)) (by simp at hf; omega)
      refine ⟨t, ?_, hx, hpg, hfree, fun f hf => hmem f fun q hq => hf q (List.mem_cons_of_mem p hq), hlog⟩
      simp only [scribble, hlow, if_false, StateT.run_bind, ok_bind, run_ldLink]
      exact ht

theorem run_aboveKernel {first : Word} {p : ℕ} (hp : p < s.npages.toNat) :
    (aboveKernel first p).run s = .ok (decide (page2pa p < extphysmem ∨ first ≤ page2pa p + kernbase), s) := by
  by_cases h : page2pa p < extphysmem
  · simp [aboveKernel, h]
  · simp [aboveKernel, h, run_page2kva hp]

theorem checkFreePage_iff {first : Word} {p : ℕ} {u : Unit} :
    (checkFreePage first p).run s = .ok (u, t) ↔ PassesCheck s first p ∧ t = s := by
  rw [checkFreePage, Prog.run_bind (run_get s)]
  simp only [run_kassert_bind]
  constructor
  · rintro ⟨h1, h2, h3, h4, h5, h6⟩
    rw [Prog.run_bind (run_aboveKernel h1), kassert_ok, decide_eq_true_eq] at h6
    exact ⟨⟨h1, h2, h3, h4, h5, h6.1⟩, h6.2⟩
  · rintro ⟨⟨h1, h2, h3, h4, h5, h6⟩, rfl⟩
    refine ⟨h1, h2, h3, h4, h5, ?_⟩
    rw [Prog.run_bind (run_aboveKernel h1), kassert_ok, decide_eq_true_eq]
    exact ⟨h6, rfl⟩

/-- number of pages of l below EXTPHYSMEM, or not -/
def countBase (base : Bool) (l : List ℕ) : ℕ := l.countP fun p => decide (page2pa p < extphysmem) == base

/-- the loop returns when every page of the list has passed, with the numbers of pages below and above EXTPHYSMEM -/
theorem checkFreePages_iff {first : Word} (l : List ℕ) {cur : Option ℕ} {fuel : ℕ} {nb ne : ℤ} {r : ℤ × ℤ}
    (h : Chain s.link cur l) (hf : l.length < fuel) :
    (checkFreePages first fuel cur nb ne).run s = .ok (r, t) ↔
      (∀ p ∈ l, PassesCheck s first p) ∧ t = s ∧ r = (nb + countBase true l, ne + countBase false l) := by
  induction l generalizing cur fuel nb ne with
  | nil =>
    obtain ⟨fuel, rfl⟩ : ∃ k, fuel = k + 1 := ⟨fuel - 1, by simp at hf; omega⟩
    obtain rfl : cur = none := h
    have hc : ∀ b, countBase b [] = 0 := fun _ => rfl
    rw [checkFreePages, run_pure, hc, hc]
    constructor
    · intro h
      cases h
      simp
    · rintro ⟨-, rfl, rfl⟩
      simp
  | cons p l ih =>
    obtain ⟨fuel, rfl⟩ : ∃ k, fuel = k + 1 := ⟨fuel - 1, by simp at hf; omega⟩
    obtain rfl : cur = some p := h.1
    have hlen : l.length < fuel := by simp at hf; omega
    have hcount : ∀ b, countBase b (p :: l) = countBase b l + if decide (page2pa p < extphysmem) = b then 1 else 0 := by
      intro b
      rw [countBase, List.countP_cons, ← countBase]
      simp
    rw [checkFreePages, Prog.bind_ok]
    -- the first page passes, and the loop goes on with one of the counters incremented
    have hstep : ∀ u s', (checkFreePage first p).run s = .ok (u, s') ∧
        ((if page2pa p < extphysmem then do checkFreePages first fuel (← ldLink p) (nb + 1) ne
          else do checkFreePages first fuel (← ldLink p) nb (ne + 1) : K (ℤ × ℤ)).run s') = .ok (r, t) ↔
        PassesCheck s first p ∧ s' = s ∧ (∀ q ∈ l, PassesCheck s first q) ∧ t = s ∧
          r = (nb + countBase true (p :: l), ne + countBase false (p :: l)) := by
      intro u s'
      rw [checkFreePage_iff, and_assoc]
      refine and_congr_right fun _ => and_congr_right ?_
      intro hs
      subst hs
      rw [hcount, hcount]
      have e : ∀ (z : ℤ) (c : ℕ), z + 1 + (c : ℤ) = z + ((c + 1 : ℕ) : ℤ) := fun z c => by omega
      by_cases hb : page2pa p < extphysmem
      · simp only [hb, if_true, StateT.run_bind, run_ldLink, ok_bind, ih h.2 hlen, decide_true, e]
        rfl
      · simp only [hb, if_false, StateT.run_bind, run_ldLink, ok_bind, ih h.2 hlen, decide_false, e]
        rfl
    simp only [hstep, List.forall_mem_cons]
    constructor
    · rintro ⟨-, -, hp, -, hl, ht, hr⟩
      exact ⟨⟨hp, hl⟩, ht, hr⟩
    · rintro ⟨⟨hp, hl⟩, ht, hr⟩
      exact ⟨(), s, hp, rfl, hl, ht, hr⟩

/-- the assertions of check_page_free_list about the free list l -/
structure CheckPasses (s : St) (l : List ℕ) : Prop where
  pages : ∀ p ∈ l, PassesCheck s s.nextfree p
  basemem : ∃ p ∈ l, page2pa p < extphysmem
  extmem : ∃ p ∈ l, ¬ page2pa p < extphysmem

theorem CheckPasses.congr {m : List ℕ} (h : CheckPasses s l) (hn : t.npages = s.npages) (hf : t.nextfree = s.nextfree)
    (hm : ∀ p, p ∈ m ↔ p ∈ l) : CheckPasses t m := by
  obtain ⟨hp, ⟨b, hb, hb'⟩, e, he, he'⟩ := h
  refine ⟨fun p hpm => ?_, ⟨b, (hm b).2 hb, hb'⟩, e, (hm e).2 he, he'⟩
  have hpass := hp p ((hm p).1 hpm)
  rw [hf]
  exact { hpass with lt := hn ▸ hpass.lt }

theorem countBase_pos {b : Bool} : (0 : ℤ) < 0 + countBase b l ↔ ∃ p ∈ l, decide (page2pa p < extphysmem) = b := by
  simp [countBase, List.countP_pos_iff]

/-- behind the relinking: the frames below the limit are written, and then every page has to pass -/
theorem checkPages_iff (kend : Word) (lim : ℕ) (h : FreeList s l) (hl : ∀ p ∈ l, p < s.npages.toNat)
    (hn : s.nextfree ≠ 0#32) :
    ∃ u, Checked l l s u ∧ ∀ r t, (checkPages kend lim).run s = .ok (r, t) ↔ t = u ∧ CheckPasses s l := by
  have hlen : l.length < s.npages.toNat + 1 := Nat.lt_succ_of_le (length_le_npages (Chain.nodup h) hl)
  obtain ⟨u, hu, hx, hpg, hfree, hmem, hlog⟩ := scribble_spec lim l _ h hl hlen
  have hlink : u.link = s.link := by unfold St.link; rw [hpg]
  have hlist : FreeList u l := h.congr hfree fun p _ => by rw [hlink]
  refine ⟨u, ⟨hx, hlist, by unfold St.ref; rw [hpg], fun i _ => by rw [hlink], hmem, hlog⟩, fun r t => ?_⟩
  rw [checkPages, Prog.run_bind (run_get s), Prog.run_bind (run_ldFree s), Prog.run_bind hu,
    Prog.run_bind (run_bootAlloc_zero (by rw [hx.nextfree]; exact hn)), Prog.run_bind (run_ldFree u), Prog.bind_ok]
  simp only [checkFreePages_iff l hlist hlen, run_kassert_bind, kassert_ok]
  constructor
  · rintro ⟨_, _, ⟨hp, rfl, rfl⟩, hb, he, rfl⟩
    have hc : CheckPasses t l := ⟨hp, by simpa using countBase_pos.1 hb, by simpa using countBase_pos.1 he⟩
    exact ⟨rfl, hc.congr hx.npages.symm hx.nextfree.symm fun _ => Iff.rfl⟩
  · rintro ⟨rfl, hc⟩
    obtain ⟨hp, hb, he⟩ := hc.congr hx.npages hx.nextfree fun _ => Iff.rfl
    exact ⟨_, _, ⟨hp, rfl, rfl⟩, countBase_pos.2 (by simpa using hb), countBase_pos.2 (by simpa using he), rfl⟩

/-- **check_page_free_list.** It returns exactly when the assertions hold of the list, in one state: the list is
partitioned if asked for, and only frames of free pages have been written. -/
theorem checkPageFreeList_iff (kend : Word) (low : Bool) (h : FreeList s l) (hl : ∀ p ∈ l, p < s.npages.toNat)
    (hn : s.nextfree ≠ 0#32) :
    ∃ u, Checked l (if low then lowFirst 1 l else l) s u ∧
      ∀ r t, (checkPageFreeList kend low).run s = .ok (r, t) ↔ t = u ∧ CheckPasses s l := by
  rcases l with - | ⟨p, m⟩
  · -- an empty list panics, and does not pass
    refine ⟨s, ⟨St.Fixed.refl s, by simpa [lowFirst] using h, rfl, fun _ _ => rfl, fun _ _ => rfl, rfl⟩, fun r t => ?_⟩
    have hnone : s.pageFreeList = none := chain_nil.1 h
    rw [checkPageFreeList, Prog.run_bind (run_ldFree s), if_pos hnone, StateT.run_bind, run_panic, error_bind]
    refine ⟨fun hc => (by cases hc), fun hc => ?_⟩
    obtain ⟨-, -, ⟨b, hb, -⟩, -⟩ := hc
    cases hb
  · have hsome : s.pageFreeList ≠ none := by rw [h.head]; exact Option.some_ne_none p
    cases low with
    | false =>
      obtain ⟨u, hu, hrun⟩ := checkPages_iff kend npdentries h hl hn
      refine ⟨u, hu, fun r t => ?_⟩
      rw [checkPageFreeList, Prog.run_bind (run_ldFree s), if_neg hsome]
      exact hrun r t
    | true =>
      obtain ⟨v, hv, hlist, hlo⟩ := relink_spec 1 h (length_le_npages (Chain.nodup h) hl)
      have hx := hlo.toFixed
      obtain ⟨u, hu, hrun⟩ := checkPages_iff kend 1 hlist
        (fun q hq => by rw [hx.npages]; exact hl q (mem_lowFirst.1 hq)) (by rw [hx.nextfree]; exact hn)
      refine ⟨u, ⟨hx.trans hu.toFixed, hu.list, hu.ref.trans hlo.ref, ?_, ?_, ?_⟩, ?_⟩
      · intro i hi
        rw [hu.links i fun hc => hi (mem_lowFirst.1 hc), hlo.links i hi]
      · intro f hf
        rw [hu.mem f fun q hq => hf q (mem_lowFirst.1 hq), hlo.mem]
      · rw [hu.allocs, hlo.log]
      · intro r t
        rw [checkPageFreeList, Prog.run_bind (run_ldFree s), if_neg hsome]
        simp only [if_true]
        rw [Prog.run_bind hv, hrun r t]
        exact and_congr_right fun _ => ⟨fun hc => hc.congr hx.npages.symm hx.nextfree.symm fun _ => mem_lowFirst.symm,
          fun hc => hc.congr hx.npages hx.nextfree fun _ => mem_lowFirst⟩

end Checks

/-! ## mem_init up to the check -/

/-- mem_init, up to check_page_free_list(1) -/
def memInitChecked (kend : Word) : K Unit := do
  memInitBoot kend
  checkPageFreeList kend true

section MemInit

variable {s t : St} {kend : Word}

/-- KADDR does not wrap below 256MB -/
theorem page2kva_toNat {i : ℕ} (hi : i < 65536) : (page2pa i + kernbase).toNat = i * 4096 + 0xF0000000 := by
  have hk : kernbase.toNat = 0xF0000000 := rfl
  rw [BitVec.toNat_add, page2pa_toNat (by omega), hk]
  omega

/-- a page behind the first 256MB wraps to an address below first_free_page -/
theorem PassesCheck.lt_65536 {first : Word} (h : PassesCheck s first 65536) (hf : first ≠ 0#32) : False := by
  have hwrap : page2pa 65536 + kernbase = 0#32 := by decide
  rcases h.above with h | h
  · exact absurd h (by decide)
  · rw [hwrap, BitVec.le_def] at h
    exact hf (BitVec.eq_of_toNat_eq (Nat.le_zero.1 h))

/-- with more than 65536 pages, page 65536 is on the list that page_init leaves -/
theorem npages_le_of_passes {k : Word} (hx : St.Fixed (s.boot k) t) (hge : kernbase ≤ (s.boot k).nextfree)
    (hle : (s.boot k).nextfree.toNat ≤ 0xF0400000) (h : CheckPasses t (initFree (s.boot k))) :
    s.npages.toNat ≤ 65536 := by
  have hge' : 0xF0000000 ≤ (s.boot k).nextfree.toNat := hge
  by_contra hc
  have hmem : 65536 ∈ initFree (s.boot k) := by
    rw [mem_initFree, managed_iff (by decide), St.boot_npages, BitVec.toNat_sub_of_le hge]
    have hk : kernbase.toNat = 0xF0000000 := rfl
    omega
  refine (h.pages 65536 hmem).lt_65536 ?_
  intro e
  rw [hx.nextfree] at e
  rw [e] at hge'
  exact absurd hge' (by decide)

/-- what is known when check_page_free_list(1) has returned: v is the state after page_init -/
theorem memInitChecked_ok (h0 : s.nextfree = 0#32) (hl : s.pageFreeList = none) (hk : KernelEnd kend)
    (hrun : (memInitChecked kend).run s = .ok ((), t)) :
    ∃ v, (memInitBoot kend).run s = .ok ((), v) ∧ s.npages.toNat ≤ 65536 ∧
      CheckPasses v (initFree (s.boot (roundup kend pgsize))) ∧
      Checked (initFree (s.boot (roundup kend pgsize))) (lowFirst 1 (initFree (s.boot (roundup kend pgsize)))) v t := by
  obtain ⟨⟨⟩, v, hv, hcheck⟩ := Prog.bind_ok.1 hrun
  obtain ⟨hf, hlo, hc, -, -⟩ := memInitBoot_ok h0 hl hk hv
  obtain ⟨hge, hle, -⟩ := hk.toNat
  obtain ⟨hadd, hsum, hnext⟩ := hf.toNat hk
  have hkb : kernbase ≤ (s.boot (roundup kend pgsize)).nextfree := by
    rw [BitVec.le_def, hnext]
    change 0xF0000000 ≤ _
    omega
  have hn0 : v.nextfree ≠ 0#32 := fun e => by
    rw [← hlo.nextfree, e] at hkb
    exact absurd hkb (by decide)
  obtain ⟨u, hu, hiff⟩ := checkPageFreeList_iff kend true hc
    (fun p hp => by rw [hlo.npages]; exact (mem_initFree.1 hp).1) hn0
  obtain ⟨rfl, hpass⟩ := (hiff () t).1 hcheck
  exact ⟨v, hv, npages_le_of_passes hlo.toFixed hkb (by rw [hnext]; omega) hpass, hpass, hu⟩

/-- the list that page_init leaves passes if there is memory behind the boot allocations -/
theorem passes_initFree {k : Word} (hx : St.Fixed (s.boot k) t) (hn : s.npages.toNat ≤ 65536)
    (hge : 0xF0101000 ≤ (s.boot k).nextfree.toNat)
    (hext : (s.boot k).nextfree.toNat + 4095 < s.npages.toNat * 4096 + 0xF0000000) :
    CheckPasses t (initFree (s.boot k)) := by
  have hk : kernbase.toNat = 0xF0000000 := rfl
  have hF : ((s.boot k).nextfree - kernbase).toNat = (s.boot k).nextfree.toNat - 0xF0000000 :=
    BitVec.toNat_sub_of_le (by rw [BitVec.le_def, hk]; omega)
  have hmem : ∀ i, i < 1048576 → (i ∈ initFree (s.boot k) ↔ i < s.npages.toNat ∧ i ≠ 0 ∧
      (i * 4096 < 0xA0000 ∨ (s.boot k).nextfree.toNat - 0xF0000000 ≤ i * 4096)) := fun i hi => by
    rw [mem_initFree, managed_iff hi, St.boot_npages, hF]
  have hlow : ∀ i, i < 65536 → (page2pa i < extphysmem ↔ i * 4096 < 0x100000) := fun i hi => by
    rw [BitVec.lt_def, page2pa_toNat (by omega)]
    rfl
  refine ⟨?_, ⟨1, ?_, ?_⟩, ((s.boot k).nextfree.toNat - 0xF0000000 + 4095) / 4096, ?_, ?_⟩
  · intro p hp
    have hlt : p < s.npages.toNat := by rw [← St.boot_npages s k]; exact (mem_initFree.1 hp).1
    obtain ⟨-, h0, hp⟩ := (hmem p (by omega)).1 hp
    have hne : ∀ w : Word, w.toNat = 0 ∨ 0xA0000 ≤ w.toNat ∧ w.toNat ≤ 0x100000 → page2pa p ≠ w := fun w hw e => by
      rw [← e, page2pa_toNat (by omega)] at hw
      omega
    refine ⟨by rwa [hx.npages, St.boot_npages], hne _ (by decide), hne _ (by decide), hne _ (by decide),
      hne _ (by decide), ?_⟩
    rw [hlow p (by omega), hx.nextfree, BitVec.le_def, page2kva_toNat (by omega)]
    omega
  · exact (hmem 1 (by omega)).2 ⟨by omega, by omega, by omega⟩
  · rw [hlow 1 (by omega)]
    omega
  · exact (hmem _ (by omega)).2 ⟨by omega, by omega, by omega⟩
  · rw [hlow _ (by omega)]
    omega

/-- mem_init gets past check_page_free_list(1) when the boot allocations fit and leave memory behind them -/
theorem memInitChecked_run (h0 : s.nextfree = 0#32) (hl : s.pageFreeList = none) (hk : KernelEnd kend)
    (hf : BootFits s kend) (hn : s.npages.toNat ≤ 65536)
    (hext : (s.boot (roundup kend pgsize)).nextfree.toNat + 4095 < s.npages.toNat * 4096 + 0xF0000000) :
    ∃ t, (memInitChecked kend).run s = .ok ((), t) := by
  obtain ⟨v, hv⟩ := memInitBoot_run h0 hl hk hf
  obtain ⟨-, hlo, hc, -⟩ := memInitBoot_ok h0 hl hk hv
  obtain ⟨hge, hle, -⟩ := hk.toNat
  obtain ⟨-, -, hnext⟩ := hf.toNat hk
  have hn0 : v.nextfree ≠ 0#32 := fun e => by
    rw [← hlo.nextfree, e] at hnext
    have hz : (0#32).toNat = 0 := rfl
    omega
  obtain ⟨u, hu, hiff⟩ := checkPageFreeList_iff kend true hc
    (fun p hp => by rw [hlo.npages]; exact (mem_initFree.1 hp).1) hn0
  refine ⟨u, Prog.bind_ok.2 ⟨(), v, hv, (hiff () u).2 ⟨rfl, passes_initFree hlo.toFixed hn ?_ hext⟩⟩⟩
  omega

/-- page2kva(&pages[i]) is the address kva, from which PADDR and pa2page lead back to the page -/
structure DirectMapped (s : St) (i : ℕ) (kva : Word) : Prop where
  run : (page2kva i).run s = .ok (kva, s)
  ge : kernbase ≤ kva
  toNat : kva.toNat = i * 4096 + kernbase.toNat
  top : kva.toNat + 4096 ≤ 4294967296
  paddr : (paddr kva).run s = .ok (page2pa i, s)
  pa2page : (pa2page (page2pa i)).run s = .ok (i, s)

theorem directMapped (hn : s.npages.toNat ≤ 65536) {i : ℕ} (hi : i < s.npages.toNat) :
    DirectMapped s i (page2pa i + kernbase) := by
  have hnat := page2kva_toNat (i := i) (by omega)
  have hge : kernbase ≤ page2pa i + kernbase := by
    rw [BitVec.le_def, hnat]
    exact Nat.le_add_left _ _
  refine ⟨run_page2kva hi, hge, hnat, by omega, ?_, ?_⟩
  · rw [run_paddr hge, BitVec.add_sub_cancel]
  · have hp : pgnum (page2pa i) = i := pgnum_page2pa (by omega)
    rw [run_pa2page (by rwa [hp]), hp]

/-- **No address wraps after the boot checks.** -/
theorem no_wrap_after_check (kend : Word) (s t : St) (h0 : s.nextfree = 0#32) (hl : s.pageFreeList = none)
    (hk : KernelEnd kend) (hrun : (memInitChecked kend).run s = .ok ((), t)) :
    t.npages = s.npages ∧ t.npages.toNat ≤ 65536 ∧
      ∃ kva : ℕ → Word, (∀ i, i < t.npages.toNat → DirectMapped t i (kva i)) ∧
        ∀ i j, i < t.npages.toNat → j < t.npages.toNat → i ≠ j →
          (kva i).toNat + 4096 ≤ (kva j).toNat ∨ (kva j).toNat + 4096 ≤ (kva i).toNat := by
  obtain ⟨v, hv, hn, -, hch⟩ := memInitChecked_ok h0 hl hk hrun
  obtain ⟨-, hlo, -⟩ := memInitBoot_ok h0 hl hk hv
  have hnp : t.npages = s.npages := by rw [hch.npages, hlo.npages, St.boot_npages]
  refine ⟨hnp, by rwa [hnp], fun i => page2pa i + kernbase, ?_, ?_⟩
  · intro i hi
    exact directMapped (by rwa [hnp]) hi
  · intro i j hi hj hij
    rw [hnp] at hi hj
    rw [page2kva_toNat (by omega), page2kva_toNat (by omega)]
    omega

/-- the machine of 512 pages gets past the check -/
theorem no_wrap_after_check_640 :
    ∃ t, (memInitChecked 0xF0117123#32).run (coldSt.detect cmos640) = .ok ((), t) ∧ t.npages.toNat ≤ 65536 ∧
      ∃ kva, DirectMapped t 300 kva := by
  have hk : KernelEnd 0xF0117123#32 := ⟨by decide, by decide⟩
  obtain ⟨t, ht⟩ := memInitChecked_run (s := coldSt.detect cmos640) rfl rfl hk
    ⟨by decide, by decide⟩ (by decide) (by rw [St.boot_nextfree]; decide)
  obtain ⟨hnp, hn, kva, hd, -⟩ := no_wrap_after_check 0xF0117123#32 _ t rfl rfl hk ht
  exact ⟨t, ht, hn, kva 300, hd 300 (by rw [hnp]; decide)⟩

end MemInit

end Jos
