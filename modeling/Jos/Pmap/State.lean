/-
The state kern/pmap.c works on, and the steps it is made of.

`St` holds the globals of pmap.c, the `pages` array and the physical memory. A `struct PageInfo *` is the index of its
element in `pages` (NULL is `none`); a `pte_t *` is a physical page frame and a word index in it. The kernel reaches
physical memory through the direct map at KERNBASE, so a kernel virtual address stands for the frame `frameOf`.

The array `pages` is kept apart from the page frames: a store to memory never changes a PageInfo. That is the machine's
behaviour as long as no free page holds a part of the array, which page_init sees to: it takes the frames up to nextfree
off the list, and boot_alloc has put the array below that (`memInitBoot_array` in Pmap.Startup).

`log` is a ghost: the pages handed out by page_alloc, the stores to physical memory and the TLB instructions, in the
order the processor issues them. No function reads it.

A function of pmap.c is a program in `K`: it reads and writes the state, and it may stop at a panic, a failed assertion
or a store through a null pointer (`Fault`). A loop of the source carries fuel, and running out of it is the fault
`diverge`.
-/
import Jos.Mmu
import Jos.Lib.Prog

namespace Jos

open Jos.Lib

/-! ## Memory -/

/-- physical memory: page frame, index of a 32-bit word in it -/
abbrev Mem := ℕ → ℕ → Word

def Mem.set (m : Mem) (f i : ℕ) (v : Word) : Mem := fun f' i' => if f' = f ∧ i' = i then v else m f' i'

/-- the first n words of frame f become v -/
def Mem.fill (m : Mem) (f n : ℕ) (v : Word) : Mem := fun f' i' => if f' = f ∧ i' < n then v else m f' i'

/-- a pointer into a page directory or page table: frame, index -/
structure PtePtr where
  frame : ℕ
  idx : ℕ
deriving DecidableEq, Repr

inductive Ev where
  /-- page_alloc hands out page i -/
  | alloc (i : ℕ)
  /-- a 32-bit store -/
  | store (f i : ℕ) (v : Word)
  | invlpg (va : Word)
  | lcr3 (pa : Word)
deriving DecidableEq, Repr

/-- the pages handed out, in order -/
def allocs (es : List Ev) : List ℕ := es.filterMap fun
  | .alloc i => some i
  | _ => none

/-- what an event does to memory -/
def Ev.mem (m : Mem) : Ev → Mem
  | .store f i v => m.set f i v
  | _ => m

/-- the stores of a memset, lowest word first -/
def fillEvs (f : ℕ) (v : Word) (n : ℕ) : List Ev := (List.range n).map fun i => .store f i v

theorem allocs_append (es fs : List Ev) : allocs (es ++ fs) = allocs es ++ allocs fs := List.filterMap_append

theorem allocs_fillEvs (f : ℕ) (v : Word) (n : ℕ) : allocs (fillEvs f v n) = [] := by
  simp [allocs, fillEvs]

/-! ## State -/

/-- inc/memlayout.h: `struct PageInfo` -/
structure PageInfo where
  /-- next page on the free list -/
  ppLink : Option ℕ
  /-- `uint16_t`: the count of pointers to this page -/
  ppRef : BitVec 16
deriving DecidableEq, Repr

structure St where
  npages : Word
  npagesBasemem : Word
  /-- kernel virtual address of the page directory -/
  kernPgdir : Word
  /-- the pointer `pages` -/
  pagesVa : Word
  /-- the elements of the array `pages` -/
  pages : ℕ → PageInfo
  pageFreeList : Option ℕ
  /-- the static variable of boot_alloc -/
  nextfree : Word
  cr3 : Word
  mem : Mem
  log : List Ev

inductive Fault where
  | panic (msg : String)
  | nullStore
  | pageFault (va : Word)
  | diverge
deriving DecidableEq, Repr

abbrev K (α : Type) := StateT St (Except Fault) α

/-- the frame a kernel virtual address stands for in the direct map -/
def frameOf (kva : Word) : ℕ := pgnum (kva - kernbase)

namespace St

/-- frame of kern_pgdir -/
def dir (s : St) : ℕ := frameOf s.kernPgdir

def link (s : St) (i : ℕ) : Option ℕ := (s.pages i).ppLink
def ref (s : St) (i : ℕ) : BitVec 16 := (s.pages i).ppRef

def setLink (s : St) (i : ℕ) (v : Option ℕ) : St :=
  { s with pages := Function.update s.pages i { s.pages i with ppLink := v } }
def setRef (s : St) (i : ℕ) (v : BitVec 16) : St :=
  { s with pages := Function.update s.pages i { s.pages i with ppRef := v } }
def setFree (s : St) (v : Option ℕ) : St := { s with pageFreeList := v }
def emit (s : St) (e : Ev) : St := { s with mem := e.mem s.mem, log := s.log ++ [e] }
def fill (s : St) (f n : ℕ) (v : Word) : St := { s with mem := s.mem.fill f n v, log := s.log ++ fillEvs f v n }

/-! Each update is seen by its own field only. -/

section Fields
variable (s : St) (i j f n : ℕ) (v : Option ℕ) (r : BitVec 16) (w : Word) (e : Ev)

@[simp] theorem setLink_link : (s.setLink i v).link = Function.update s.link i v := by
  funext k; by_cases h : k = i <;> simp [setLink, link, h, Function.update]
@[simp] theorem setLink_ref : (s.setLink i v).ref = s.ref := by
  funext k; by_cases h : k = i <;> simp [setLink, ref, h, Function.update]
@[simp] theorem setRef_link : (s.setRef i r).link = s.link := by
  funext k; by_cases h : k = i <;> simp [setRef, link, h, Function.update]
@[simp] theorem setRef_ref : (s.setRef i r).ref = Function.update s.ref i r := by
  funext k; by_cases h : k = i <;> simp [setRef, ref, h, Function.update]
@[simp] theorem setFree_link : (s.setFree v).link = s.link := rfl
@[simp] theorem setFree_ref : (s.setFree v).ref = s.ref := rfl
@[simp] theorem emit_link : (s.emit e).link = s.link := rfl
@[simp] theorem emit_ref : (s.emit e).ref = s.ref := rfl
@[simp] theorem fill_link : (s.fill f n w).link = s.link := rfl
@[simp] theorem fill_ref : (s.fill f n w).ref = s.ref := rfl

@[simp] theorem setLink_free : (s.setLink i v).pageFreeList = s.pageFreeList := rfl
@[simp] theorem setRef_free : (s.setRef i r).pageFreeList = s.pageFreeList := rfl
@[simp] theorem setFree_free : (s.setFree v).pageFreeList = v := rfl
@[simp] theorem emit_free : (s.emit e).pageFreeList = s.pageFreeList := rfl
@[simp] theorem fill_free : (s.fill f n w).pageFreeList = s.pageFreeList := rfl

@[simp] theorem setLink_mem : (s.setLink i v).mem = s.mem := rfl
@[simp] theorem setRef_mem : (s.setRef i r).mem = s.mem := rfl
@[simp] theorem setFree_mem : (s.setFree v).mem = s.mem := rfl
@[simp] theorem emit_mem : (s.emit e).mem = e.mem s.mem := rfl
@[simp] theorem fill_mem : (s.fill f n w).mem = s.mem.fill f n w := rfl

@[simp] theorem setLink_log : (s.setLink i v).log = s.log := rfl
@[simp] theorem setRef_log : (s.setRef i r).log = s.log := rfl
@[simp] theorem setFree_log : (s.setFree v).log = s.log := rfl
@[simp] theorem emit_log : (s.emit e).log = s.log ++ [e] := rfl
@[simp] theorem fill_log : (s.fill f n w).log = s.log ++ fillEvs f w n := rfl

end Fields

/-- the globals that mem_init fixes once: everything but `pages`, the free list, memory and the log agrees -/
structure Fixed (s t : St) : Prop where
  npages : t.npages = s.npages
  npagesBasemem : t.npagesBasemem = s.npagesBasemem
  kernPgdir : t.kernPgdir = s.kernPgdir
  pagesVa : t.pagesVa = s.pagesVa
  nextfree : t.nextfree = s.nextfree
  cr3 : t.cr3 = s.cr3

theorem Fixed.refl (s : St) : Fixed s s := ⟨rfl, rfl, rfl, rfl, rfl, rfl⟩

theorem Fixed.trans {s t u : St} (h1 : Fixed s t) (h2 : Fixed t u) : Fixed s u :=
  ⟨h2.1.trans h1.1, h2.2.trans h1.2, h2.3.trans h1.3, h2.4.trans h1.4, h2.5.trans h1.5, h2.6.trans h1.6⟩

theorem Fixed.symm {s t : St} (h : Fixed s t) : Fixed t s :=
  ⟨h.1.symm, h.2.symm, h.3.symm, h.4.symm, h.5.symm, h.6.symm⟩

section Fields
variable (s : St) (i f n : ℕ) (v : Option ℕ) (r : BitVec 16) (w : Word) (e : Ev)

theorem fixed_setLink : Fixed s (s.setLink i v) := ⟨rfl, rfl, rfl, rfl, rfl, rfl⟩
theorem fixed_setRef : Fixed s (s.setRef i r) := ⟨rfl, rfl, rfl, rfl, rfl, rfl⟩
theorem fixed_setFree : Fixed s (s.setFree v) := ⟨rfl, rfl, rfl, rfl, rfl, rfl⟩
theorem fixed_emit : Fixed s (s.emit e) := ⟨rfl, rfl, rfl, rfl, rfl, rfl⟩
theorem fixed_fill : Fixed s (s.fill f n w) := ⟨rfl, rfl, rfl, rfl, rfl, rfl⟩

end Fields

theorem Fixed.dir {s t : St} (h : Fixed s t) : t.dir = s.dir := by
  unfold St.dir; rw [h.kernPgdir]

end St

/-! ## Steps -/

section Steps

def panic {α : Type} (msg : String) : K α := throw (.panic msg)

/-- inc/assert.h: `assert(x)` -/
def kassert (x : String) (c : Prop) [Decidable c] : K Unit := if c then pure () else panic ("assertion failed: " ++ x)

def ldLink (i : ℕ) : K (Option ℕ) := do return (← get).link i
def stLink (i : ℕ) (v : Option ℕ) : K Unit := modify fun s => s.setLink i v
def ldRef (i : ℕ) : K (BitVec 16) := do return (← get).ref i
def stRef (i : ℕ) (v : BitVec 16) : K Unit := modify fun s => s.setRef i v
def ldFree : K (Option ℕ) := do return (← get).pageFreeList
def stFree (v : Option ℕ) : K Unit := modify fun s => s.setFree v
/-- `*p` -/
def ldw (p : PtePtr) : K Word := do return (← get).mem p.frame p.idx
/-- `*p = v` -/
def stw (p : PtePtr) (v : Word) : K Unit := modify fun s => s.emit (.store p.frame p.idx v)
def issue (e : Ev) : K Unit := modify fun s => s.emit e

/-- the 32-bit word memset stores for the byte c -/
def byteWord (c : Word) : Word := (c <<< 24) ||| (c <<< 16) ||| (c <<< 8) ||| c

/-- `memset(v, c, 4*n)` inside one page: lib/string.c stores n words -/
def memset (kva c : Word) (n : ℕ) : K Unit := modify fun s => s.fill (frameOf kva) n (byteWord (c &&& 0xFF))

/-! The runs of the single steps. The proofs are `(rfl)`, not `rfl`: as plain rewrite rules they are applied one by one,
and no check has to evaluate a whole state. -/

@[simp] theorem pure_ok {ε α : Type} (a : α) : (pure a : Except ε α) = .ok a := (rfl)

@[simp] theorem ok_bind {ε α β : Type} (a : α) (f : α → Except ε β) : (Except.ok a >>= f) = f a := (rfl)

@[simp] theorem error_bind {ε α β : Type} (e : ε) (f : α → Except ε β) : (Except.error e >>= f) = .error e := (rfl)

variable {α : Type} (s : St)

@[simp] theorem run_pure (a : α) : (pure a : K α).run s = .ok (a, s) := (rfl)
@[simp] theorem run_panic (msg : String) : (panic msg : K α).run s = .error (.panic msg) := (rfl)
@[simp] theorem run_ldLink (i : ℕ) : (ldLink i).run s = .ok (s.link i, s) := (rfl)
@[simp] theorem run_stLink (i : ℕ) (v : Option ℕ) : (stLink i v).run s = .ok ((), s.setLink i v) := (rfl)
@[simp] theorem run_ldRef (i : ℕ) : (ldRef i).run s = .ok (s.ref i, s) := (rfl)
@[simp] theorem run_stRef (i : ℕ) (v : BitVec 16) : (stRef i v).run s = .ok ((), s.setRef i v) := (rfl)
@[simp] theorem run_ldFree : ldFree.run s = .ok (s.pageFreeList, s) := (rfl)
@[simp] theorem run_stFree (v : Option ℕ) : (stFree v).run s = .ok ((), s.setFree v) := (rfl)
@[simp] theorem run_ldw (p : PtePtr) : (ldw p).run s = .ok (s.mem p.frame p.idx, s) := (rfl)
@[simp] theorem run_stw (p : PtePtr) (v : Word) :
    (stw p v).run s = .ok ((), s.emit (.store p.frame p.idx v)) := (rfl)
@[simp] theorem run_issue (e : Ev) : (issue e).run s = .ok ((), s.emit e) := (rfl)
@[simp] theorem run_memset (kva c : Word) (n : ℕ) :
    (memset kva c n).run s = .ok ((), s.fill (frameOf kva) n (byteWord (c &&& 0xFF))) := (rfl)
@[simp] theorem run_get : (get : K St).run s = .ok (s, s) := (rfl)

theorem run_kassert {x : String} {c : Prop} [Decidable c] (h : c) : (kassert x c).run s = .ok ((), s) := by
  simp [kassert, h]

theorem kassert_ok {x : String} {c : Prop} [Decidable c] {s s' : St} {u : Unit} :
    (kassert x c).run s = .ok (u, s') ↔ c ∧ s' = s := by
  by_cases h : c
  · simp [kassert, h, eq_comm]
  · simp [kassert, h]

/-- what is behind an assertion runs only if it holds -/
theorem run_kassert_bind {β : Type} {x : String} {c : Prop} [Decidable c] {f : Unit → K β} {s : St} {r : β × St} :
    (kassert x c >>= f).run s = .ok r ↔ c ∧ (f ()).run s = .ok r := by
  by_cases h : c
  · simp [kassert, h]
  · simp [kassert, h]

end Steps

/-! ## Programs that return -/

/-- x, run in s, returns a result in a state for which Q holds -/
def Ends {α : Type} (x : K α) (s : St) (Q : α → St → Prop) : Prop := ∃ a t, x.run s = .ok (a, t) ∧ Q a t

section Ends

variable {α β : Type} {x : K α} {f : α → K β} {s s' : St} {a : α} {Q : α → St → Prop} {R : β → St → Prop}

theorem Ends.of_run (h : x.run s = .ok (a, s')) (hq : Q a s') : Ends x s Q := ⟨a, s', h, hq⟩

theorem Ends.bind (h : x.run s = .ok (a, s')) (hf : Ends (f a) s' R) : Ends (x >>= f) s R := by
  obtain ⟨b, t, ht, hr⟩ := hf
  exact ⟨b, t, (Prog.run_bind h).trans ht, hr⟩

/-- the rest of a program, behind one of its parts -/
theorem Ends.seq (h : Ends x s Q) (hf : ∀ a t, Q a t → Ends (f a) t R) : Ends (x >>= f) s R := by
  obtain ⟨a, t, ht, hq⟩ := h
  exact (hf a t hq).bind ht

theorem Ends.assert {m : String} {c : Prop} [Decidable c] {g : Unit → K β} (hc : c) (hg : Ends (g ()) s R) :
    Ends (kassert m c >>= g) s R := hg.bind (run_kassert s hc)

end Ends

end Jos
