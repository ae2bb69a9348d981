/-
The first code of the kernel (kern/entry.S) and the page tables it turns on (kern/entrypgdir.c).

The machine reads its instructions from physical memory byte by byte and decodes them; only the instructions that entry.S
is assembled to are known to the decoder. Paging is off at the start. Once CR0_PG is set every fetch and every store goes
through the tables that cr3 names, and a supervisor store to a page without PTE_W faults, because CR0_WP is set with it.
The segments are the flat ones of the boot loader, so a linear address is the address that the code names. Results:
- `CodeAt.congr`: the decoded code depends on its own bytes only;
- `mmu_entryTables`: what the two tables translate, page by page;
- `entry_reaches_c`: from the entry point the machine is in i386_init after eleven instructions, with nothing but the
  warm-boot word and the return address stored.
-/
import Mathlib.Data.List.GetD
import Jos.Boot.Main
import Jos.Lib.StringOps
import Jos.Pmap.Walk

namespace Jos

open Jos.Lib

/-! ## kern/entrypgdir.c -/

/-- `entry_pgdir[i]`, with entry_pgtable at the given link address -/
def entryPgdir (pgtable : Word) (i : ℕ) : Word :=
  if i = 0 then (pgtable - kernbase) + pteP
  else if i = (kernbase >>> 22).toNat then (pgtable - kernbase) + pteP + pteW
  else 0#32

/-- `entry_pgtable[i]`; the initializer writes the 1024 of them out -/
def entryPgtable (i : ℕ) : Word := BitVec.ofNat 32 (i * 0x1000) ||| pteP ||| pteW

/-! ## The machine -/

/-- Protection Enable -/
def cr0PE : Word := 0x00000001
/-- Write Protect -/
def cr0WP : Word := 0x00010000
/-- Paging -/
def cr0PG : Word := 0x80000000

/-- offset in page -/
def pgoff (la : Word) : Word := la &&& 0xFFF#32

/-- the registers that entry.S uses, and memory -/
structure Machine where
  eip : Word
  eax : Word
  ebp : Word
  esp : Word
  cr0 : Word
  cr3 : Word
  mem : Ram

inductive Instr where
  /-- `movw $v, a` -/
  | movw (v : BitVec 16) (a : Word)
  /-- `movl $v, %eax` -/
  | movEax (v : Word)
  /-- `movl %eax, %cr3` -/
  | eaxCr3
  /-- `movl %cr0, %eax` -/
  | cr0Eax
  /-- `orl $v, %eax` -/
  | orEax (v : Word)
  /-- `movl %eax, %cr0` -/
  | eaxCr0
  /-- `jmp *%eax` -/
  | jmpEax
  /-- `movl $v, %ebp` -/
  | movEbp (v : Word)
  /-- `movl $v, %esp` -/
  | movEsp (v : Word)
  /-- `call`, with the distance from the next instruction -/
  | call (rel : Word)
  /-- `jmp`, with the distance from the next instruction -/
  | jmp (rel : Byte)
deriving DecidableEq, Repr

/-- the bytes that an instruction takes -/
def Instr.len : Instr → ℕ
  | .movw _ _ => 9
  | .movEax _ => 5
  | .eaxCr3 => 3
  | .cr0Eax => 3
  | .orEax _ => 5
  | .eaxCr0 => 3
  | .jmpEax => 2
  | .movEbp _ => 5
  | .movEsp _ => 5
  | .call _ => 5
  | .jmp _ => 2

/-- the 32-bit operand from byte k on -/
def imm32 (b : ℕ → Option Byte) (k : ℕ) : Option Word := do
  return (← b (k + 3)) ++ (← b (k + 2)) ++ (← b (k + 1)) ++ (← b k)

def imm16 (b : ℕ → Option Byte) (k : ℕ) : Option (BitVec 16) := do
  return (← b (k + 1)) ++ (← b k)

/-- the forms of `mov` to and from a control register -/
def decodeMovCr (sub reg : Byte) : Option Instr :=
  if sub = 0x22#8 ∧ reg = 0xD8#8 then some .eaxCr3
  else if sub = 0x20#8 ∧ reg = 0xC0#8 then some .cr0Eax
  else if sub = 0x22#8 ∧ reg = 0xC0#8 then some .eaxCr0
  else none

/-- the instruction at the bytes b whose first is op, in the encodings of the i386 -/
def decodeOp (op : Byte) (b : ℕ → Option Byte) : Option Instr :=
  if op = 0x66#8 then do
    let ext ← b 1
    let modrm ← b 2
    let a ← imm32 b 3
    let v ← imm16 b 7
    if ext = 0xC7#8 ∧ modrm = 0x05#8 then some (.movw v a) else none
  else if op = 0xB8#8 then (imm32 b 1).map .movEax
  else if op = 0x0D#8 then (imm32 b 1).map .orEax
  else if op = 0xBD#8 then (imm32 b 1).map .movEbp
  else if op = 0xBC#8 then (imm32 b 1).map .movEsp
  else if op = 0xE8#8 then (imm32 b 1).map .call
  else if op = 0xEB#8 then (b 1).map .jmp
  else if op = 0xFF#8 then do if (← b 1) = 0xE0#8 then some .jmpEax else none
  else if op = 0x0F#8 then do decodeMovCr (← b 1) (← b 2)
  else none

/-- none is a fault in fetching the instruction, or another instruction than those -/
def decode (b : ℕ → Option Byte) : Option Instr := do decodeOp (← b 0) b

/-- the bytes of a word, the lowest first -/
def wordBytes (w : Word) : List Byte :=
  [w.setWidth 8, (w >>> 8).setWidth 8, (w >>> 16).setWidth 8, (w >>> 24).setWidth 8]

/-- physical memory as frames of 32-bit words, as the page walk reads it -/
def frames (m : Ram) : Mem := fun f i => ld32 m (page2pa f + BitVec.ofNat 32 (4 * i))

namespace Machine

/-- the physical address behind a linear one, none for a page fault -/
def phys (s : Machine) (write : Bool) (va : Word) : Option Word :=
  if s.cr0 &&& cr0PG = 0 then some va
  else
    match mmu (frames s.mem) (pgnum s.cr3) (pgnum va) with
    | none => none
    | some (f, perm) =>
      if write ∧ s.cr0 &&& cr0WP ≠ 0 ∧ perm &&& pteW = 0 then none else some (page2pa f + pgoff va)

/-- byte k of the instruction -/
def code (s : Machine) (k : ℕ) : Option Byte := (s.phys false (s.eip + BitVec.ofNat 32 k)).map s.mem

/-- memory after a store of the bytes from va on; each of them is translated by the tables before the store -/
def store (s : Machine) (va : Word) : List Byte → Option Ram
  | [] => some s.mem
  | b :: bs => do
    let pa ← s.phys true va
    let m ← s.store (va + 1#32) bs
    return Function.update m pa b

def exec (s : Machine) (i : Instr) : Option Machine :=
  let next := s.eip + BitVec.ofNat 32 i.len
  match i with
  | .movw v a => do return { s with eip := next, mem := ← s.store a [v.setWidth 8, (v >>> 8).setWidth 8] }
  | .movEax v => some { s with eip := next, eax := v }
  | .eaxCr3 => some { s with eip := next, cr3 := s.eax }
  | .cr0Eax => some { s with eip := next, eax := s.cr0 }
  | .orEax v => some { s with eip := next, eax := s.eax ||| v }
  -- CR0_PG without CR0_PE is a fault
  | .eaxCr0 =>
    if s.eax &&& cr0PG ≠ 0 ∧ s.eax &&& cr0PE = 0 then none else some { s with eip := next, cr0 := s.eax }
  | .jmpEax => some { s with eip := s.eax }
  | .movEbp v => some { s with eip := next, ebp := v }
  | .movEsp v => some { s with eip := next, esp := v }
  | .call rel => do
    let m ← s.store (s.esp - 4#32) (wordBytes next)
    return { s with eip := next + rel, esp := s.esp - 4#32, mem := m }
  | .jmp rel => some { s with eip := next + rel.signExtend 32 }

def step (s : Machine) : Option Machine := do s.exec (← decode s.code)

def run : ℕ → Machine → Option Machine
  | 0, s => some s
  | n + 1, s => do run n (← s.step)

end Machine

/-! ## kern/entry.S -/

/-- the addresses that the linker gives -/
structure Layout where
  entry : Word
  pgdir : Word
  pgtable : Word
  bootstacktop : Word
  i386Init : Word

namespace Layout

variable (L : Layout)

/-- RELOC(x) -/
def reloc (x : Word) : Word := x - kernbase

/-- the address after the first eight instructions -/
def relocated : Word := L.entry + 35#32

/-- the address after the call -/
def spin : Word := L.entry + 50#32

/-- the code from `entry` on -/
def entryCode : List Instr :=
  [.movw 0x1234#16 0x472#32,
    .movEax (reloc L.pgdir),
    .eaxCr3,
    .cr0Eax,
    .orEax (cr0PE ||| cr0PG ||| cr0WP),
    .eaxCr0,
    .movEax L.relocated,
    .jmpEax,
    .movEbp 0x0#32,
    .movEsp L.bootstacktop,
    .call (L.i386Init - L.spin),
    .jmp (-2#8)]

end Layout

/-- the instructions is are in physical memory from pa on -/
def CodeAt (m : Ram) : Word → List Instr → Prop
  | _, [] => True
  | pa, i :: is => decode (fun k => some (m (pa + BitVec.ofNat 32 k))) = some i ∧ CodeAt m (pa + BitVec.ofNat 32 i.len) is

/-! ## The decoder -/

theorem Instr.len_pos (i : Instr) : 0 < i.len := by
  cases i <;> simp [Instr.len]

theorem imm32_congr {b b' : ℕ → Option Byte} {k : ℕ} (hb : ∀ j < k + 4, b' j = b j) : imm32 b' k = imm32 b k := by
  unfold imm32
  rw [hb k (by omega), hb (k + 1) (by omega), hb (k + 2) (by omega), hb (k + 3) (by omega)]

theorem imm16_congr {b b' : ℕ → Option Byte} {k : ℕ} (hb : ∀ j < k + 2, b' j = b j) : imm16 b' k = imm16 b k := by
  unfold imm16
  rw [hb k (by omega), hb (k + 1) (by omega)]

theorem decodeMovCr_len {sub reg : Byte} {i : Instr} (h : decodeMovCr sub reg = some i) : i.len = 3 := by
  unfold decodeMovCr at h
  split_ifs at h <;> obtain rfl := Option.some.inj h <;> rfl

/-- an instruction of an opcode and an operand of 32 bits -/
theorem map_imm32_congr {b b' : ℕ → Option Byte} {f : Word → Instr} {i : Instr} (hf : ∀ v, (f v).len = 5)
    (h : (imm32 b 1).map f = some i) (hb : ∀ k < i.len, b' k = b k) : (imm32 b' 1).map f = some i := by
  obtain ⟨v, hv, rfl⟩ := Option.map_eq_some_iff.1 h
  have hread : ∀ k < 1 + 4, b' k = b k := by
    intro k hk
    exact hb k (by rw [hf]; omega)
  rw [imm32_congr hread, hv]
  rfl

/-- the decoder reads the bytes of the instruction and no other -/
theorem decode_congr {b b' : ℕ → Option Byte} {i : Instr} (h : decode b = some i) (hb : ∀ k < i.len, b' k = b k) :
    decode b' = some i := by
  obtain ⟨op, hop, h⟩ := Option.bind_eq_some_iff.1 h
  apply Option.bind_eq_some_iff.2
  refine ⟨op, (hb 0 i.len_pos).trans hop, ?_⟩
  unfold decodeOp at h ⊢
  split_ifs at h ⊢
  · -- movw
    obtain ⟨ext, hext, h⟩ := Option.bind_eq_some_iff.1 h
    obtain ⟨modrm, hmodrm, h⟩ := Option.bind_eq_some_iff.1 h
    obtain ⟨a, ha, h⟩ := Option.bind_eq_some_iff.1 h
    obtain ⟨v, hv, h⟩ := Option.bind_eq_some_iff.1 h
    split_ifs at h with hcode
    obtain rfl := Option.some.inj h
    have hread : ∀ k < 9, b' k = b k := hb
    rw [hread 1 (by decide), hread 2 (by decide), hext, hmodrm, imm32_congr fun k hk => hread k (by omega), ha,
      imm16_congr fun k hk => hread k (by omega), hv]
    simp only [Option.bind_eq_bind, Option.bind_some, if_pos hcode]
  · exact map_imm32_congr (fun _ => rfl) h hb
  · exact map_imm32_congr (fun _ => rfl) h hb
  · exact map_imm32_congr (fun _ => rfl) h hb
  · exact map_imm32_congr (fun _ => rfl) h hb
  · exact map_imm32_congr (fun _ => rfl) h hb
  · -- jmp
    obtain ⟨rel, hrel, rfl⟩ := Option.map_eq_some_iff.1 h
    rw [hb 1 (by simp [Instr.len]), hrel]
    rfl
  · -- jmp *%eax
    obtain ⟨modrm, hmodrm, h⟩ := Option.bind_eq_some_iff.1 h
    split_ifs at h with hcode
    obtain rfl := Option.some.inj h
    rw [hb 1 (by decide), hmodrm]
    simp only [Option.bind_eq_bind, Option.bind_some, if_pos hcode]
  · -- the control registers
    obtain ⟨sub, hsub, h⟩ := Option.bind_eq_some_iff.1 h
    obtain ⟨reg, hreg, h⟩ := Option.bind_eq_some_iff.1 h
    rw [decodeMovCr_len h] at hb
    rw [hb 1 (by decide), hb 2 (by decide), hsub, hreg]
    exact h

/-- the bytes that the instructions take -/
def codeLen (is : List Instr) : ℕ := (is.map Instr.len).sum

theorem CodeAt.congr {m m' : Ram} {pa : Word} {is : List Instr} (h : CodeAt m pa is)
    (hm : ∀ k < codeLen is, m' (pa + BitVec.ofNat 32 k) = m (pa + BitVec.ofNat 32 k)) : CodeAt m' pa is := by
  induction is generalizing pa with
  | nil => trivial
  | cons i is ih =>
    obtain ⟨hi, hrest⟩ := h
    have hlen : codeLen (i :: is) = i.len + codeLen is := by simp [codeLen]
    refine ⟨decode_congr hi ?_, ih hrest ?_⟩
    · intro k hk
      rw [hm k (by omega)]
    · intro k hk
      have := hm (i.len + k) (by omega)
      rw [BitVec.ofNat_add, ← BitVec.add_assoc] at this
      exact this

/-! ## Stores -/

theorem ld32_congr {m m' : Ram} {a : Word} (h : ∀ k < 4, m' (a + BitVec.ofNat 32 k) = m (a + BitVec.ofNat 32 k)) :
    ld32 m' a = ld32 m a := by
  have h0 := h 0 (by decide)
  rw [BitVec.add_zero] at h0
  rw [ld32, ld32, h0, h 1 (by decide), h 2 (by decide), h 3 (by decide)]

theorem append_bytes (w : Word) :
    ((w >>> 24).setWidth 8 : Byte) ++ ((w >>> 16).setWidth 8 : Byte) ++ ((w >>> 8).setWidth 8 : Byte) ++
      (w.setWidth 8 : Byte) = w := by
  have hw := w.isLt
  apply BitVec.eq_of_toNat_eq
  rw [Cpu.append_toNat, Cpu.append_toNat, Cpu.append_toNat]
  simp only [BitVec.toNat_setWidth, BitVec.toNat_ushiftRight, Nat.shiftRight_eq_div_pow]
  omega

theorem ld32_bytes {m : Ram} {a w : Word} (h : ∀ k < 4, m (a + BitVec.ofNat 32 k) = (wordBytes w).getD k 0#8) :
    ld32 m a = w := by
  have h0 := h 0 (by decide)
  rw [BitVec.add_zero] at h0
  rw [ld32, h0, h 1 (by decide), h 2 (by decide), h 3 (by decide)]
  exact append_bytes w

/-- what is stored is what is loaded -/
theorem ld32_put (m : Ram) (a w : Word) : ld32 (put m a (wordBytes w)) a = w := by
  apply ld32_bytes
  intro k hk
  rw [put_at hk (by omega), List.getD_eq_getElem _ _ hk]
  rfl

/-- byte o of an array of words -/
def arrayByte (f : ℕ → Word) (o : ℕ) : Byte := (wordBytes (f (o / 4))).getD (o % 4) 0#8

/-- an array that is in memory byte by byte is there word by word -/
theorem ld32_array {m : Ram} {a : Word} {f : ℕ → Word} {n i : ℕ}
    (h : ∀ o < 4 * n, m (a + BitVec.ofNat 32 o) = arrayByte f o) (hi : i < n) :
    ld32 m (a + BitVec.ofNat 32 (4 * i)) = f i := by
  apply ld32_bytes
  intro k hk
  have hdiv : (4 * i + k) / 4 = i := by omega
  have hmod : (4 * i + k) % 4 = k := by omega
  rw [BitVec.add_assoc, ← BitVec.ofNat_add, h _ (by omega), arrayByte, hdiv, hmod]

/-- bytes that are translated to one place after another go there -/
theorem Machine.store_eq {s : Machine} {va pa : Word} {bs : List Byte}
    (h : ∀ k < bs.length, s.phys true (va + BitVec.ofNat 32 k) = some (pa + BitVec.ofNat 32 k)) :
    s.store va bs = some (put s.mem pa bs) := by
  induction bs generalizing va pa with
  | nil => rfl
  | cons b bs ih =>
    have h0 : s.phys true va = some pa := by
      have := h 0 (Nat.succ_pos _)
      rwa [BitVec.add_zero, BitVec.add_zero] at this
    have hrest : ∀ k < bs.length, s.phys true (va + 1#32 + BitVec.ofNat 32 k) = some (pa + 1#32 + BitVec.ofNat 32 k) := by
      intro k hk
      have := h (1 + k) (by rw [List.length_cons]; omega)
      rwa [BitVec.ofNat_add, ← BitVec.add_assoc, ← BitVec.add_assoc] at this
    rw [Machine.store, h0, ih hrest, put_cons_last]
    rfl

/-! ## The linked kernel -/

/-- n bytes from x on are in the image, which is linked at KERNBASE + 1MB and has to fit into the first 4MB -/
def InImage (x : Word) (n : ℕ) : Prop := 0xF0100000 ≤ x.toNat ∧ x.toNat + n ≤ 0xF0400000

instance (x : Word) (n : ℕ) : Decidable (InImage x n) := inferInstanceAs (Decidable (_ ∧ _))

namespace Layout

/-- the code, the two tables and the boot stack are in the image, the tables on pages of their own -/
structure Linked (L : Layout) : Prop where
  entry : InImage L.entry 52
  pgdir : InImage L.pgdir 4096
  pgdir_aligned : L.pgdir.toNat % 4096 = 0
  pgtable : InImage L.pgtable 4096
  pgtable_aligned : L.pgtable.toNat % 4096 = 0
  stack : InImage (L.bootstacktop - kstksize) kstksize.toNat
  stack_pgdir : L.bootstacktop.toNat ≤ L.pgdir.toNat ∨ L.pgdir.toNat + 4096 ≤ (L.bootstacktop - kstksize).toNat
  stack_pgtable : L.bootstacktop.toNat ≤ L.pgtable.toNat ∨ L.pgtable.toNat + 4096 ≤ (L.bootstacktop - kstksize).toNat
  i386Init : InImage L.i386Init 1

end Layout

/-- the two tables are in memory, where the loader puts them -/
structure EntryTables (m : Ram) (L : Layout) : Prop where
  pgdir : ∀ i < 1024, ld32 m (Layout.reloc L.pgdir + BitVec.ofNat 32 (4 * i)) = entryPgdir L.pgtable i
  pgtable : ∀ i < 1024, ld32 m (Layout.reloc L.pgtable + BitVec.ofNat 32 (4 * i)) = entryPgtable i

theorem EntryTables.of_bytes {m : Ram} {L : Layout}
    (hd : ∀ o < 4096, m (Layout.reloc L.pgdir + BitVec.ofNat 32 o) = arrayByte (entryPgdir L.pgtable) o)
    (ht : ∀ o < 4096, m (Layout.reloc L.pgtable + BitVec.ofNat 32 o) = arrayByte entryPgtable o) : EntryTables m L :=
  ⟨fun _ hi => ld32_array hd hi, fun _ hi => ld32_array ht hi⟩

theorem EntryTables.congr {m m' : Ram} {L : Layout} (h : EntryTables m L)
    (hd : ∀ k < 4096, m' (Layout.reloc L.pgdir + BitVec.ofNat 32 k) = m (Layout.reloc L.pgdir + BitVec.ofNat 32 k))
    (ht : ∀ k < 4096, m' (Layout.reloc L.pgtable + BitVec.ofNat 32 k) = m (Layout.reloc L.pgtable + BitVec.ofNat 32 k)) :
    EntryTables m' L := by
  constructor
  · intro i hi
    rw [← h.pgdir i hi]
    apply ld32_congr
    intro k hk
    rw [BitVec.add_assoc, ← BitVec.ofNat_add]
    exact hd _ (by omega)
  · intro i hi
    rw [← h.pgtable i hi]
    apply ld32_congr
    intro k hk
    rw [BitVec.add_assoc, ← BitVec.ofNat_add]
    exact ht _ (by omega)

/-! ## What the tables translate -/

theorem reloc_toNat {x : Word} {n : ℕ} (h : InImage x n) : (Layout.reloc x).toNat = x.toNat - 0xF0000000 := by
  obtain ⟨hlo, -⟩ := h
  have hle : kernbase ≤ x := by
    change 0xF0000000 ≤ x.toNat
    omega
  exact BitVec.toNat_sub_of_le hle

theorem page2pa_pgnum_of_aligned {x : Word} (h : x.toNat % 4096 = 0) : page2pa (pgnum x) = x := by
  rw [page2pa_pgnum]
  apply BitVec.eq_of_toNat_eq
  rw [pteAddr_toNat]
  omega

/-- a frame address and the flags below 8 -/
theorem flags_of_toNat {e : Word} {f p : ℕ} (he : e.toNat = f * 4096 + p) (hp : p < 8) :
    pgnum e = f ∧ e &&& permMask = BitVec.ofNat 32 p := by
  refine ⟨by rw [pgnum_eq]; omega, ?_⟩
  have hlow : e &&& 7#32 = BitVec.ofNat 32 p := by
    apply BitVec.eq_of_toNat_eq
    have hmod : (e &&& 7#32).toNat = e.toNat % 8 := by simpa using Nat.and_two_pow_sub_one_eq_mod e.toNat 3
    rw [hmod, BitVec.toNat_ofNat]
    omega
  exact hlow

section Tables

variable {m : Ram} {L : Layout} (hl : L.Linked) (ht : EntryTables m L)
include hl ht

theorem frames_pgdir {d : ℕ} (hd : d < 1024) : frames m (pgnum (Layout.reloc L.pgdir)) d = entryPgdir L.pgtable d := by
  have hal : (Layout.reloc L.pgdir).toNat % 4096 = 0 := by
    have := hl.pgdir_aligned
    rw [reloc_toNat hl.pgdir]
    omega
  rw [frames, page2pa_pgnum_of_aligned hal]
  exact ht.pgdir d hd

theorem frames_pgtable {i : ℕ} (hi : i < 1024) : frames m (pgnum (Layout.reloc L.pgtable)) i = entryPgtable i := by
  have hal : (Layout.reloc L.pgtable).toNat % 4096 = 0 := by
    have := hl.pgtable_aligned
    rw [reloc_toNat hl.pgtable]
    omega
  rw [frames, page2pa_pgnum_of_aligned hal]
  exact ht.pgtable i hi

end Tables

theorem entryPgtable_toNat {i : ℕ} (hi : i < 1024) : (entryPgtable i).toNat = i * 4096 + 3 := by
  have hpa : (BitVec.ofNat 32 (i * 0x1000)).toNat = i * 4096 := by
    rw [BitVec.toNat_ofNat]
    omega
  have hor : entryPgtable i = BitVec.ofNat 32 (i * 0x1000) ||| 3#32 := by
    unfold entryPgtable
    rw [BitVec.or_assoc]
    rfl
  rw [hor, or_toNat (by rw [hpa]; omega) (by decide), hpa]
  rfl

section Tables

variable {m : Ram} {L : Layout} (hl : L.Linked) (ht : EntryTables m L)
include hl ht

/-- the translation of a page whose directory entry names the table, with the flags p -/
theorem mmu_of_entry {n p : ℕ} (hn : n < 1048576) (hp : p < 8) (hodd : p % 2 = 1)
    (he : entryPgdir L.pgtable (n / 1024) = Layout.reloc L.pgtable + BitVec.ofNat 32 p) :
    mmu (frames m) (pgnum (Layout.reloc L.pgdir)) n = some (n % 1024, BitVec.ofNat 32 p &&& 3#32) := by
  have hval : (entryPgdir L.pgtable (n / 1024)).toNat = pgnum (Layout.reloc L.pgtable) * 4096 + p := by
    have hrel := reloc_toNat hl.pgtable
    have hal := hl.pgtable_aligned
    obtain ⟨hlo, hhi⟩ := hl.pgtable
    rw [he, BitVec.toNat_add, BitVec.toNat_ofNat, pgnum_eq]
    omega
  obtain ⟨hframe, hflags⟩ := flags_of_toNat hval hp
  have hdir := frames_pgdir hl ht (show n / 1024 < 1024 by omega)
  have htbl : tbl (frames m) (pgnum (Layout.reloc L.pgdir)) (n / 1024) = some (pgnum (Layout.reloc L.pgtable)) := by
    apply tbl_eq_some.2
    rw [hdir]
    refine ⟨?_, hframe⟩
    rw [present_iff, hval]
    omega
  have hi : n % 1024 < 1024 := Nat.mod_lt _ (by decide)
  have hentry := frames_pgtable hl ht hi
  obtain ⟨hpage, hperm⟩ := flags_of_toNat (entryPgtable_toNat hi) (by decide)
  have hxlat : xlat (frames m) (pgnum (Layout.reloc L.pgdir)) n = some (entryPgtable (n % 1024)) := by
    rw [xlat_of_tbl htbl, hentry, if_pos]
    rw [present_iff, entryPgtable_toNat hi]
    omega
  have hmask : entryPgdir L.pgtable (n / 1024) &&& entryPgtable (n % 1024) &&& permMask = BitVec.ofNat 32 p &&& 3#32 :=
    calc entryPgdir L.pgtable (n / 1024) &&& entryPgtable (n % 1024) &&& permMask
        = (entryPgdir L.pgtable (n / 1024) &&& permMask) &&& (entryPgtable (n % 1024) &&& permMask) := by
          rw [BitVec.and_assoc, BitVec.and_assoc, BitVec.and_comm permMask, BitVec.and_assoc, BitVec.and_self]
      _ = BitVec.ofNat 32 p &&& 3#32 := by rw [hflags, hperm]
  rw [mmu, hxlat, Option.map_some, hdir, hpage, hmask]

/-- **What the tables of entry.S translate**: the first 4MB to themselves, read-only, and the 4MB from KERNBASE on to the
same memory, writable. -/
theorem mmu_entryTables {n : ℕ} (hn : n < 1048576) :
    mmu (frames m) (pgnum (Layout.reloc L.pgdir)) n =
      if n < 1024 then some (n, pteP)
      else if n / 1024 = 960 then some (n - 983040, pteP ||| pteW)
      else none := by
  split_ifs with hlow hhigh
  · have he : entryPgdir L.pgtable (n / 1024) = Layout.reloc L.pgtable + BitVec.ofNat 32 1 := by
      rw [Nat.div_eq_of_lt hlow]
      rfl
    rw [mmu_of_entry hl ht hn (by decide) (by decide) he, Nat.mod_eq_of_lt hlow]
    rfl
  · have he : entryPgdir L.pgtable (n / 1024) = Layout.reloc L.pgtable + BitVec.ofNat 32 3 := by
      rw [hhigh]
      change L.pgtable - kernbase + pteP + pteW = L.pgtable - kernbase + 3#32
      rw [BitVec.add_assoc]
      rfl
    have hpage : n % 1024 = n - 983040 := by omega
    rw [mmu_of_entry hl ht hn (by decide) (by decide) he, hpage]
    rfl
  · have hz : entryPgdir L.pgtable (n / 1024) = 0#32 := by
      have hdir : (kernbase >>> 22).toNat = 960 := by decide
      rw [entryPgdir, if_neg (by omega), hdir, if_neg hhigh]
    have hdir := frames_pgdir hl ht (show n / 1024 < 1024 by omega)
    have htbl : tbl (frames m) (pgnum (Layout.reloc L.pgdir)) (n / 1024) = none := by
      apply tbl_eq_none.2
      rw [hdir, hz]
      exact not_present_zero
    rw [mmu, xlat_none htbl]
    rfl

end Tables

/-- where an access goes once paging is on, none for a page fault -/
def entryMap (write : Bool) (va : Word) : Option Word :=
  if va < ptsize then (if write then none else some va)
  else if kernbase ≤ va ∧ va < kernbase + ptsize then some (va - kernbase)
  else none

namespace Machine

/-- the machine runs on the tables of entry.S -/
structure Paged (s : Machine) (L : Layout) : Prop where
  pg : s.cr0 &&& cr0PG ≠ 0
  wp : s.cr0 &&& cr0WP ≠ 0
  cr3 : s.cr3 = Layout.reloc L.pgdir
  tables : EntryTables s.mem L

theorem page_join {va : Word} {f : ℕ} (hf : f ≤ pgnum va) :
    page2pa f + pgoff va = va - BitVec.ofNat 32 ((pgnum va - f) * 4096) := by
  have hva := va.isLt
  have hpg := pgnum_eq va
  apply BitVec.eq_of_toNat_eq
  rw [BitVec.toNat_add, page2pa_toNat (by omega), pgoff, low_toNat, BitVec.toNat_sub, BitVec.toNat_ofNat]
  omega

theorem Paged.phys {s : Machine} {L : Layout} (h : s.Paged L) (hl : L.Linked) (write : Bool) (va : Word) :
    s.phys write va = entryMap write va := by
  have hva := va.isLt
  have hpg := pgnum_eq va
  have hlow : va < ptsize ↔ pgnum va < 1024 := by
    change va.toNat < 4194304 ↔ _
    omega
  have hhigh : kernbase ≤ va ∧ va < kernbase + ptsize ↔ pgnum va / 1024 = 960 := by
    change 4026531840 ≤ va.toNat ∧ va.toNat < 4030726144 ↔ _
    omega
  rw [Machine.phys, if_neg h.pg, h.cr3, mmu_entryTables hl h.tables (pgnum_lt va), entryMap]
  by_cases h1 : pgnum va < 1024
  · have hro : pteP &&& pteW = 0 := by decide
    have hjoin : page2pa (pgnum va) + pgoff va = va := by
      rw [page_join (le_refl _), Nat.sub_self, Nat.zero_mul, BitVec.sub_zero]
    have hwp : ¬ s.cr0 &&& cr0WP = 0#32 := h.wp
    simp [h1, hlow.2 h1, hro, hwp, hjoin]
  · by_cases h2 : pgnum va / 1024 = 960
    · have hrw : ¬ (pteP ||| pteW) &&& pteW = 0#32 := by decide
      have hbase : pgnum va - (pgnum va - 983040) = 983040 := by omega
      have hjoin : page2pa (pgnum va - 983040) + pgoff va = va - kernbase := by
        rw [page_join (Nat.sub_le _ _), hbase]
        rfl
      simp [h1, mt hlow.1 h1, h2, hhigh.2 h2, hrw, hjoin]
    · simp [h1, mt hlow.1 h1, h2, mt hhigh.1 h2]

/-- paging is off: every address is physical -/
theorem phys_off {s : Machine} (h : s.cr0 &&& cr0PG = 0) (write : Bool) (va : Word) : s.phys write va = some va :=
  if_pos h

/-- the instruction at eip is executed, if all its bytes are where the fetches go -/
theorem step_of_code {s : Machine} {pa : Word} {i : Instr}
    (hd : decode (fun k => some (s.mem (pa + BitVec.ofNat 32 k))) = some i)
    (hf : ∀ k < i.len, s.phys false (s.eip + BitVec.ofNat 32 k) = some (pa + BitVec.ofNat 32 k)) :
    s.step = s.exec i := by
  have hcode : decode s.code = some i := by
    apply decode_congr hd
    intro k hk
    rw [code, hf k hk]
    rfl
  rw [step, hcode]
  rfl

theorem run_step {s t : Machine} (h : s.step = some t) (n : ℕ) : run (n + 1) s = run n t := by
  rw [run, h]
  rfl

theorem run_add {s t : Machine} {n : ℕ} (h : run n s = some t) (k : ℕ) : run (n + k) s = run k t := by
  induction n generalizing s with
  | zero =>
    obtain rfl : s = t := Option.some.inj h
    rw [Nat.zero_add]
  | succ n ih =>
    rw [Nat.succ_add]
    cases hs : s.step with
    | none =>
      rw [run, hs] at h
      cases h
    | some u =>
      rw [run_step hs] at h ⊢
      exact ih h

end Machine

/-! ## The run -/

/-- memory after `movw $0x1234,0x472` -/
def warmBoot (m : Ram) : Ram := put m 0x472#32 [0x34#8, 0x12#8]

namespace Layout

variable (L : Layout)

/-- the instructions before paging is on -/
def unpagedCode : List Instr :=
  [.movw 0x1234#16 0x472#32, .movEax (reloc L.pgdir), .eaxCr3, .cr0Eax, .orEax (cr0PE ||| cr0PG ||| cr0WP), .eaxCr0]

/-- the instructions at low addresses after that -/
def lowCode : List Instr := [.movEax L.relocated, .jmpEax]

/-- the instructions at their link address -/
def highCode : List Instr :=
  [.movEbp 0x0#32, .movEsp L.bootstacktop, .call (L.i386Init - L.spin), .jmp (-2#8)]

theorem entryCode_eq : L.entryCode = L.unpagedCode ++ (L.lowCode ++ L.highCode) := rfl

/-! The machine after each of the three parts. -/

def pagingOn (s : Machine) : Machine :=
  { s with
    eip := reloc L.entry + 28#32
    eax := s.cr0 ||| (cr0PE ||| cr0PG ||| cr0WP)
    cr0 := s.cr0 ||| (cr0PE ||| cr0PG ||| cr0WP)
    cr3 := reloc L.pgdir
    mem := warmBoot s.mem }

def jumpedUp (s : Machine) : Machine := { s with eip := L.relocated, eax := L.relocated }

def calledC (s : Machine) : Machine :=
  { s with
    eip := L.i386Init
    ebp := 0#32
    esp := L.bootstacktop - 4#32
    mem := put s.mem (reloc (L.bootstacktop - 4#32)) (wordBytes L.spin) }

end Layout

theorem CodeAt.split {m : Ram} {pa : Word} {is js : List Instr} (h : CodeAt m pa (is ++ js)) :
    CodeAt m pa is ∧ CodeAt m (pa + BitVec.ofNat 32 (codeLen is)) js := by
  induction is generalizing pa with
  | nil => exact ⟨trivial, by simpa [codeLen] using h⟩
  | cons i is ih =>
    obtain ⟨hi, hrest⟩ := h
    obtain ⟨his, hjs⟩ := ih hrest
    refine ⟨⟨hi, his⟩, ?_⟩
    rw [BitVec.add_assoc, ← BitVec.ofNat_add] at hjs
    exact hjs

/-- the bits that entry.S sets are set, whatever was in the register -/
theorem or_flags_and (x : Word) {f flags : Word} (hf : flags &&& f = f) : (x ||| flags) &&& f = f := by
  rw [BitVec.and_or_distrib_right, hf]
  apply BitVec.eq_of_getLsbD_eq
  intro i hi
  simp only [BitVec.getLsbD_or, BitVec.getLsbD_and]
  cases f.getLsbD i <;> simp

namespace Machine

/-- with paging off the instruction is at the address eip -/
theorem step_unpaged {s : Machine} {i : Instr} (hpg : s.cr0 &&& cr0PG = 0)
    (hd : decode (fun k => some (s.mem (s.eip + BitVec.ofNat 32 k))) = some i) : s.step = s.exec i :=
  step_of_code hd fun _ _ => phys_off hpg _ _

/-- **Paging goes on.** The page tables play no part in the six instructions. -/
theorem run_unpaged {s : Machine} {L : Layout} (heip : s.eip = Layout.reloc L.entry) (hpg : s.cr0 &&& cr0PG = 0)
    (hcode : CodeAt s.mem s.eip L.unpagedCode) (hkept : CodeAt (warmBoot s.mem) s.eip L.unpagedCode) :
    run 6 s = some (L.pagingOn s) := by
  obtain ⟨d0, -⟩ := hcode
  obtain ⟨-, d1, d2, d3, d4, d5, -⟩ := hkept
  -- the states after each instruction
  let s1 : Machine := { s with eip := s.eip + 9#32, mem := warmBoot s.mem }
  let s2 : Machine := { s1 with eip := s1.eip + 5#32, eax := Layout.reloc L.pgdir }
  let s3 : Machine := { s2 with eip := s2.eip + 3#32, cr3 := Layout.reloc L.pgdir }
  let s4 : Machine := { s3 with eip := s3.eip + 3#32, eax := s.cr0 }
  let s5 : Machine := { s4 with eip := s4.eip + 5#32, eax := s.cr0 ||| (cr0PE ||| cr0PG ||| cr0WP) }
  let s6 : Machine := { s5 with eip := s5.eip + 3#32, cr0 := s.cr0 ||| (cr0PE ||| cr0PG ||| cr0WP) }
  have h1 : s.step = some s1 := by
    rw [step_unpaged hpg d0, exec, store_eq fun k _ => phys_off hpg _ _]
    rfl
  have h2 : s1.step = some s2 := step_unpaged (s := s1) hpg d1
  have h3 : s2.step = some s3 := step_unpaged (s := s2) hpg d2
  have h4 : s3.step = some s4 := step_unpaged (s := s3) hpg d3
  have h5 : s4.step = some s5 := step_unpaged (s := s4) hpg d4
  have h6 : s5.step = some s6 := by
    have hpe : (s.cr0 ||| (cr0PE ||| cr0PG ||| cr0WP)) &&& cr0PE = cr0PE := or_flags_and _ (by decide)
    have hset : ¬ ((s.cr0 ||| (cr0PE ||| cr0PG ||| cr0WP)) &&& cr0PG ≠ 0 ∧
        (s.cr0 ||| (cr0PE ||| cr0PG ||| cr0WP)) &&& cr0PE = 0) := by
      rw [hpe]
      exact fun h => absurd h.2 (by decide)
    exact (step_unpaged (s := s5) hpg d5).trans (if_neg hset)
  have heip6 : s6.eip = Layout.reloc L.entry + 28#32 := by
    rw [← heip]
    change s.eip + 9#32 + 5#32 + 3#32 + 3#32 + 5#32 + 3#32 = s.eip + 28#32
    bv_omega
  calc run 6 s
      = run 5 s1 := run_step h1 5
    _ = run 4 s2 := run_step h2 4
    _ = run 3 s3 := run_step h3 3
    _ = run 2 s4 := run_step h4 2
    _ = run 1 s5 := run_step h5 1
    _ = some s6 := run_step h6 0
    _ = some { s6 with eip := Layout.reloc L.entry + 28#32 } := by rw [← heip6]

end Machine

/-- addresses of the image, at their load address -/
theorem entryMap_low {x : Word} {n k : ℕ} (h : InImage x n) (hk : k < n) :
    entryMap false (Layout.reloc x + BitVec.ofNat 32 k) = some (Layout.reloc x + BitVec.ofNat 32 k) := by
  have hrel := reloc_toNat h
  obtain ⟨hlo, hhi⟩ := h
  have hlt : Layout.reloc x + BitVec.ofNat 32 k < ptsize := by
    change (Layout.reloc x + BitVec.ofNat 32 k).toNat < 4194304
    rw [BitVec.toNat_add, BitVec.toNat_ofNat]
    omega
  rw [entryMap, if_pos hlt]
  rfl

/-- addresses of the image, at their link address -/
theorem entryMap_high {x : Word} {n k : ℕ} (h : InImage x n) (hk : k < n) (write : Bool) :
    entryMap write (x + BitVec.ofNat 32 k) = some (Layout.reloc x + BitVec.ofNat 32 k) := by
  have hrel := reloc_toNat h
  obtain ⟨hlo, hhi⟩ := h
  have hnat : (x + BitVec.ofNat 32 k).toNat = x.toNat + k := by
    rw [BitVec.toNat_add, BitVec.toNat_ofNat]
    omega
  have hlow : ¬ x + BitVec.ofNat 32 k < ptsize := by
    change ¬ (x + BitVec.ofNat 32 k).toNat < 4194304
    omega
  have hhigh : kernbase ≤ x + BitVec.ofNat 32 k ∧ x + BitVec.ofNat 32 k < kernbase + ptsize := by
    change 4026531840 ≤ (x + BitVec.ofNat 32 k).toNat ∧ (x + BitVec.ofNat 32 k).toNat < 4030726144
    omega
  rw [entryMap, if_neg hlow, if_pos hhigh, Layout.reloc]
  congr 1
  bv_omega

namespace Machine

variable {s : Machine} {L : Layout} (hl : L.Linked) (hp : s.Paged L)
include hl hp

/-- **The jump up**: the two instructions are still fetched from the load address, which the tables map to itself. -/
theorem run_low (heip : s.eip = Layout.reloc L.entry + 28#32) (hcode : CodeAt s.mem s.eip L.lowCode) :
    run 2 s = some (L.jumpedUp s) := by
  obtain ⟨d0, d1, -⟩ := hcode
  let s1 : Machine := { s with eip := s.eip + 5#32, eax := L.relocated }
  have h1 : s.step = some s1 := by
    apply step_of_code d0
    intro k hk
    have hk5 : k < 5 := hk
    rw [hp.phys hl, heip, BitVec.add_assoc, ← BitVec.ofNat_add]
    exact entryMap_low hl.entry (by omega)
  have h2 : s1.step = some { s1 with eip := L.relocated } := by
    apply step_of_code (s := s1) d1
    intro k hk
    have hk2 : k < 2 := hk
    have hp1 : s1.Paged L := ⟨hp.pg, hp.wp, hp.cr3, hp.tables⟩
    rw [hp1.phys hl]
    change entryMap false (s.eip + 5#32 + BitVec.ofNat 32 k) = some (s.eip + 5#32 + BitVec.ofNat 32 k)
    rw [heip, BitVec.add_assoc, BitVec.add_assoc, ← BitVec.ofNat_add, ← BitVec.ofNat_add]
    exact entryMap_low hl.entry (by omega)
  calc run 2 s
      = run 1 s1 := run_step h1 1
    _ = some { s1 with eip := L.relocated } := run_step h2 0

/-- a fetch of the instruction that is o bytes after `entry`, at its link address -/
theorem fetch_high {o k : ℕ} (heip : s.eip = L.entry + BitVec.ofNat 32 o) (hk : o + k < 52) :
    s.phys false (s.eip + BitVec.ofNat 32 k) = some (Layout.reloc L.entry + BitVec.ofNat 32 o + BitVec.ofNat 32 k) := by
  rw [hp.phys hl, heip, BitVec.add_assoc, BitVec.add_assoc, ← BitVec.ofNat_add]
  exact entryMap_high hl.entry hk false

/-- **The call**: fetched through the mapping at KERNBASE, which takes the return address too. -/
theorem run_high (heip : s.eip = L.relocated) (hcode : CodeAt s.mem (Layout.reloc L.entry + 35#32) L.highCode) :
    run 3 s = some (L.calledC s) := by
  obtain ⟨d0, d1, d2, -⟩ := hcode
  let s1 : Machine := { s with eip := L.relocated + 5#32, ebp := 0#32 }
  let s2 : Machine := { s1 with eip := L.relocated + 5#32 + 5#32, esp := L.bootstacktop }
  have hp1 : s1.Paged L := ⟨hp.pg, hp.wp, hp.cr3, hp.tables⟩
  have hp2 : s2.Paged L := ⟨hp.pg, hp.wp, hp.cr3, hp.tables⟩
  have h1 : s.step = some s1 := by
    have hstep : s.step = s.exec (.movEbp 0x0#32) := by
      apply step_of_code d0
      intro k hk
      have hk5 : k < 5 := hk
      exact fetch_high hl hp heip (by omega)
    rw [hstep, exec, heip]
    rfl
  have h2 : s1.step = some s2 := by
    apply step_of_code (s := s1) d1
    intro k hk
    have hk5 : k < 5 := hk
    have heip1 : s1.eip = L.entry + BitVec.ofNat 32 40 := BitVec.add_assoc _ _ _
    rw [fetch_high hl hp1 heip1 (by omega), BitVec.add_assoc (Layout.reloc L.entry) 35#32]
    rfl
  have hspin : L.relocated + 5#32 + 5#32 + 5#32 = L.spin := by
    unfold Layout.relocated Layout.spin
    bv_omega
  have hstore : s2.store (L.bootstacktop - 4#32) (wordBytes L.spin) =
      some (put s.mem (Layout.reloc (L.bootstacktop - 4#32)) (wordBytes L.spin)) := by
    have hslot : InImage (L.bootstacktop - 4#32) 4 := by
      obtain ⟨hlo, hhi⟩ := hl.stack
      have hsize : kstksize = 32768#32 := rfl
      rw [hsize] at hlo hhi
      constructor
      · bv_omega
      · bv_omega
    apply store_eq (s := s2)
    intro k hk
    have hk4 : k < 4 := hk
    rw [hp2.phys hl]
    exact entryMap_high hslot hk4 true
  have h3 : s2.step = some { s2 with
      eip := L.i386Init
      esp := L.bootstacktop - 4#32
      mem := put s.mem (Layout.reloc (L.bootstacktop - 4#32)) (wordBytes L.spin) } := by
    have hstep : s2.step = s2.exec (.call (L.i386Init - L.spin)) := by
      apply step_of_code (s := s2) d2
      intro k hk
      have hk5 : k < 5 := hk
      have heip2 : s2.eip = L.entry + BitVec.ofNat 32 45 := by
        change L.entry + 35#32 + 5#32 + 5#32 = L.entry + 45#32
        bv_omega
      have hsum : Layout.reloc L.entry + 45#32 = Layout.reloc L.entry + 35#32 + 5#32 + 5#32 := by bv_omega
      exact (fetch_high hl hp2 heip2 (by omega)).trans (congrArg (fun a => some (a + BitVec.ofNat 32 k)) hsum)
    have hnext : s2.eip + BitVec.ofNat 32 (Instr.call (L.i386Init - L.spin)).len = L.spin := hspin
    have htarget : L.spin + (L.i386Init - L.spin) = L.i386Init := add_sub_cancel _ _
    rw [hstep, exec, hnext, htarget]
    change (do
      let m ← s2.store (L.bootstacktop - 4#32) (wordBytes L.spin)
      return { s2 with eip := L.i386Init, esp := L.bootstacktop - 4#32, mem := m }) = _
    rw [hstore]
    rfl
  calc run 3 s
      = run 2 s1 := run_step h1 2
    _ = run 1 s2 := run_step h2 1
    _ = _ := run_step h3 0

end Machine

/-! ## Main result -/

/-- the stores of entry.S leave an object of the image alone -/
theorem put_image {m : Ram} {x a : Word} {n k : ℕ} {bs : List Byte} (hx : InImage x n) (hk : k < n)
    (ha : a.toNat + bs.length ≤ 2 ^ 32)
    (hoff : a.toNat + bs.length ≤ (Layout.reloc x).toNat ∨ (Layout.reloc x).toNat + n ≤ a.toNat) :
    put m a bs (Layout.reloc x + BitVec.ofNat 32 k) = m (Layout.reloc x + BitVec.ofNat 32 k) := by
  have hrel := reloc_toNat hx
  obtain ⟨hlo, hhi⟩ := hx
  apply put_off
  rw [BitVec.toNat_sub, BitVec.toNat_add, BitVec.toNat_ofNat]
  omega

/-- the machine in i386_init -/
def Layout.inC (L : Layout) (s : Machine) : Machine := L.calledC (L.jumpedUp (L.pagingOn s))

/-- the eleven instructions, and the tables after them -/
theorem Layout.Linked.run_entry {L : Layout} (hl : L.Linked) {s : Machine}
    (hcode : CodeAt s.mem (Layout.reloc L.entry) L.entryCode) (ht : EntryTables s.mem L)
    (heip : s.eip = Layout.reloc L.entry) (hpg : s.cr0 &&& cr0PG = 0) :
    Machine.run 11 s = some (L.inC s) ∧ (L.inC s).Paged L := by
  have hwarm : ∀ {x : Word} {n : ℕ}, InImage x n → ∀ k < n,
      warmBoot s.mem (Layout.reloc x + BitVec.ofNat 32 k) = s.mem (Layout.reloc x + BitVec.ofNat 32 k) := by
    intro x n hx k hk
    apply put_image hx hk (by decide)
    left
    have hlo := hx.1
    rw [reloc_toNat hx]
    change 1138 + 2 ≤ _
    omega
  have hkept : CodeAt (warmBoot s.mem) (Layout.reloc L.entry) L.entryCode := hcode.congr (hwarm hl.entry)
  have htables : EntryTables (warmBoot s.mem) L := ht.congr (hwarm hl.pgdir) (hwarm hl.pgtable)
  rw [Layout.entryCode_eq] at hcode hkept
  obtain ⟨hcode6, -⟩ := hcode.split
  obtain ⟨hkept6, hkept⟩ := hkept.split
  obtain ⟨hlow, hhigh⟩ := hkept.split
  rw [← heip] at hcode6 hkept6
  have h6 : Machine.run 6 s = some (L.pagingOn s) := Machine.run_unpaged heip hpg hcode6 hkept6
  have hp : (L.pagingOn s).Paged L := by
    refine ⟨?_, ?_, rfl, htables⟩
    · rw [Layout.pagingOn, or_flags_and _ (by decide)]
      decide
    · rw [Layout.pagingOn, or_flags_and _ (by decide)]
      decide
  have h2 : Machine.run 2 (L.pagingOn s) = some (L.jumpedUp (L.pagingOn s)) := Machine.run_low hl hp rfl hlow
  have hp2 : (L.jumpedUp (L.pagingOn s)).Paged L := ⟨hp.pg, hp.wp, hp.cr3, hp.tables⟩
  have hsum : Layout.reloc L.entry + 28#32 + 7#32 = Layout.reloc L.entry + 35#32 := BitVec.add_assoc _ _ _
  have h3 : Machine.run 3 (L.jumpedUp (L.pagingOn s)) = some (L.calledC (L.jumpedUp (L.pagingOn s))) :=
    Machine.run_high hl hp2 rfl (hsum ▸ hhigh)
  -- the push is in the boot stack, off the tables
  obtain ⟨hlo, hhi⟩ := hl.stack
  rw [show kstksize = 32768#32 from rfl] at hlo hhi
  have hesp : (Layout.reloc (L.bootstacktop - 4#32)).toNat + 4 = L.bootstacktop.toNat - 0xF0000000 := by
    rw [Layout.reloc, show kernbase = 4026531840#32 from rfl]
    bv_omega
  have hbottom : (L.bootstacktop - kstksize).toNat + 32768 = L.bootstacktop.toNat := by
    rw [show kstksize = 32768#32 from rfl]
    bv_omega
  have hpushed : ∀ {x : Word}, InImage x 4096 →
      L.bootstacktop.toNat ≤ x.toNat ∨ x.toNat + 4096 ≤ (L.bootstacktop - kstksize).toNat → ∀ k < 4096,
      put (warmBoot s.mem) (Layout.reloc (L.bootstacktop - 4#32)) (wordBytes L.spin) (Layout.reloc x + BitVec.ofNat 32 k) =
        warmBoot s.mem (Layout.reloc x + BitVec.ofNat 32 k) := by
    intro x hx hapart k hk
    have hlen : (wordBytes L.spin).length = 4 := rfl
    have hxlo := hx.1
    apply put_image hx hk
    · rw [hlen]
      omega
    · rw [hlen, reloc_toNat hx]
      omega
  have hp3 : (L.inC s).Paged L := by
    refine ⟨hp.pg, hp.wp, hp.cr3, ?_⟩
    exact htables.congr (hpushed hl.pgdir hl.stack_pgdir) (hpushed hl.pgtable hl.stack_pgtable)
  have hrun : Machine.run 11 s = some (L.inC s) :=
    calc Machine.run 11 s
        = Machine.run 5 (L.pagingOn s) := Machine.run_add h6 5
      _ = Machine.run 3 (L.jumpedUp (L.pagingOn s)) := Machine.run_add h2 3
      _ = some (L.inC s) := h3
  exact ⟨hrun, hp3⟩

/-- **The kernel enters C.** Wherever the kernel is linked, from the entry point with paging off the machine is in
i386_init after eleven instructions: it has translated every fetch and the push by the tables in the image, the frame
pointer is 0, the return address is on top of the boot stack, and from then on the 4MB at KERNBASE are the first 4MB of
memory and nothing else can be written. -/
theorem entry_reaches_c (L : Layout) (s : Machine) (hl : L.Linked)
    (hcode : CodeAt s.mem (Layout.reloc L.entry) L.entryCode) (ht : EntryTables s.mem L)
    (heip : s.eip = Layout.reloc L.entry) (hpg : s.cr0 &&& cr0PG = 0) :
    ∃ t, Machine.run 11 s = some t ∧ t.eip = L.i386Init ∧ t.ebp = 0#32 ∧ t.esp = L.bootstacktop - 4#32 ∧
      (∀ write va, t.phys write va = entryMap write va) ∧
      t.mem = put (warmBoot s.mem) (Layout.reloc t.esp) (wordBytes L.spin) ∧
      ld32 t.mem (Layout.reloc t.esp) = L.spin := by
  obtain ⟨hrun, hp⟩ := hl.run_entry hcode ht heip hpg
  exact ⟨_, hrun, rfl, rfl, rfl, hp.phys hl, rfl, ld32_put _ _ _⟩

/-- a kernel with its code at 1MB, its boot stack after it and the two tables behind the stack -/
def kernelLayout : Layout where
  entry := 0xF010000C
  pgdir := 0xF0112000
  pgtable := 0xF0113000
  bootstacktop := 0xF0110000
  i386Init := 0xF0100040

/-- entry.S as it is assembled for that layout -/
def entryText : List Byte :=
  [0x66, 0xC7, 0x05, 0x72, 0x04, 0x00, 0x00, 0x34, 0x12,
    0xB8, 0x00, 0x20, 0x11, 0x00,
    0x0F, 0x22, 0xD8,
    0x0F, 0x20, 0xC0,
    0x0D, 0x01, 0x00, 0x01, 0x80,
    0x0F, 0x22, 0xC0,
    0xB8, 0x2F, 0x00, 0x10, 0xF0,
    0xFF, 0xE0,
    0xBD, 0x00, 0x00, 0x00, 0x00,
    0xBC, 0x00, 0x00, 0x11, 0xF0,
    0xE8, 0x02, 0x00, 0x00, 0x00,
    0xEB, 0xFE]

/-- memory with the code and the tables in it -/
def entryRam (L : Layout) (text : List Byte) : Ram := fun x =>
  if (x - Layout.reloc L.pgdir).toNat < 4096 then arrayByte (entryPgdir L.pgtable) (x - Layout.reloc L.pgdir).toNat
  else if (x - Layout.reloc L.pgtable).toNat < 4096 then arrayByte entryPgtable (x - Layout.reloc L.pgtable).toNat
  else text.getD (x - Layout.reloc L.entry).toNat 0#8

theorem kernelLayout_linked : kernelLayout.Linked := by
  constructor <;> decide

theorem entryRam_codeAt :
    CodeAt (entryRam kernelLayout entryText) (Layout.reloc kernelLayout.entry) kernelLayout.entryCode := by
  refine ⟨?_, ?_, ?_, ?_, ?_, ?_, ?_, ?_, ?_, ?_, ?_, ?_, trivial⟩
  all_goals decide +kernel

theorem entryRam_pgdir (text : List Byte) {o : ℕ} (ho : o < 4096) :
    entryRam kernelLayout text (Layout.reloc kernelLayout.pgdir + BitVec.ofNat 32 o) =
      arrayByte (entryPgdir kernelLayout.pgtable) o := by
  rw [entryRam, offset_toNat (by omega), if_pos ho]

theorem entryRam_pgtable (text : List Byte) {o : ℕ} (ho : o < 4096) :
    entryRam kernelLayout text (Layout.reloc kernelLayout.pgtable + BitVec.ofNat 32 o) = arrayByte entryPgtable o := by
  -- the page table is the page after the directory
  have hnext : Layout.reloc kernelLayout.pgtable + BitVec.ofNat 32 o =
      Layout.reloc kernelLayout.pgdir + BitVec.ofNat 32 (4096 + o) := by
    rw [BitVec.ofNat_add, ← BitVec.add_assoc]
    rfl
  rw [entryRam, hnext, offset_toNat (by omega), if_neg (by omega), ← hnext, offset_toNat (by omega), if_pos ho]

theorem entryRam_tables (text : List Byte) : EntryTables (entryRam kernelLayout text) kernelLayout :=
  EntryTables.of_bytes (fun _ ho => entryRam_pgdir text ho) (fun _ ho => entryRam_pgtable text ho)

/-- the run from the machine code of a kernel -/
theorem entry_reaches_c_kernel :
    ∃ t, Machine.run 11 ⟨0x10000C#32, 0#32, 0x7BF8#32, 0x7BDC#32, 0x11#32, 0#32, entryRam kernelLayout entryText⟩ = some t ∧
      t.eip = 0xF0100040#32 ∧ t.phys true 0xF0101000#32 = some 0x101000#32 ∧ t.phys true 0x101000#32 = none ∧
      ld32 t.mem 0x10FFFC#32 = 0xF010003E#32 := by
  obtain ⟨t, hrun, heip, -, hesp, hphys, -, hret⟩ := entry_reaches_c kernelLayout
    ⟨0x10000C#32, 0#32, 0x7BF8#32, 0x7BDC#32, 0x11#32, 0#32, entryRam kernelLayout entryText⟩ kernelLayout_linked
    entryRam_codeAt (entryRam_tables entryText) rfl (by decide)
  rw [hesp] at hret
  exact ⟨t, hrun, heip, (hphys _ _).trans (by decide), (hphys _ _).trans (by decide), hret⟩

end Jos
