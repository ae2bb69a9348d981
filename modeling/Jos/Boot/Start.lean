/-
From the disk to C: bootmain (boot/main.c), then entry.S, then the first statement of i386_init (kern/init.c).

`KernelImage` says what bootmain relies on in an image: an ELF header and the program headers in the first page, segments
above 1MB at their file offset modulo a sector, none of them spoiling an earlier one. `Placed` says that an object of the
kernel is in the segments. Results:
- `bootmain_loads`: bootmain reads the header from the disk and brings every byte of every segment, whatever was in memory;
- `boot_to_c`: the machine that it starts runs to i386_init, and once the BSS is cleared the kernel sees at its link
  addresses the image, zeros and its return address. The frames of i386_init and memset may be anything; they lie below the
  return address (`InFrames`).

The accessed and dirty bits that the processor sets in the page tables are not modelled.
-/
import Jos.Boot.Entry
import Jos.String.Memory

namespace Jos

open Jos.Lib

/-! ## The image on the disk -/

/-- the first page of the image in the scratch space -/
def firstPage (d : Disk) : Ram := fun a => image d (a.toNat - elfhdr.toNat)

/-- e_phoff -/
def phoff (d : Disk) : Word := ld32 (firstPage d) (elfhdr + 28#32)

/-- an image with the program headers segs and the entry point e -/
structure KernelImage (d : Disk) (segs : List Proghdr) (e : Word) : Prop where
  magic : ld32 (firstPage d) elfhdr = elfMagic
  entry : ld32 (firstPage d) (elfhdr + 24#32) = e
  phnum : (ld16 (firstPage d) (elfhdr + 44#32)).toNat = segs.length
  phoff : (phoff d).toNat + 32 * segs.length ≤ 4096
  headers : Headers (firstPage d) (elfhdr + Jos.phoff d) segs
  congruent : ∀ p ∈ segs, p.Congruent
  /-- above the boot loader and its scratch space -/
  above : ∀ p ∈ segs, extphysmem.toNat ≤ p.pPa.toNat
  tails : TailsKept d segs

/-- the n bytes of an object that is linked at x are f 0, f 1, .. in the segments -/
def Placed (d : Disk) (segs : List Proghdr) (x : Word) (n : ℕ) (f : ℕ → Byte) : Prop :=
  ∀ k < n, ∃ p ∈ segs, ∃ j < p.pMemsz.toNat,
    Layout.reloc x + BitVec.ofNat 32 k = p.pPa + BitVec.ofNat 32 j ∧ image d (p.pOffset.toNat + j) = f k

/-! ## bootmain -/

theorem ld16_scratch {m t : Ram} (h : ∀ a, InScratch a → t a = m a) {a : Word} (h1 : elfhdr.toNat ≤ a.toNat)
    (h2 : a.toNat + 2 ≤ elfhdr.toNat + 4096) : ld16 t a = ld16 m a := by
  rw [show elfhdr.toNat = 65536 from rfl] at h1 h2
  have hlo : InScratch a := by
    rw [InScratch, show elfhdr.toNat = 65536 from rfl]
    omega
  have hhi : InScratch (a + 1#32) := by
    rw [InScratch, show elfhdr.toNat = 65536 from rfl, BitVec.toNat_add, BitVec.toNat_ofNat]
    omega
  rw [ld16, ld16, h a hlo, h _ hhi]

theorem layer_over_touched {d : Disk} {p : Proghdr} (m : Ram) {a : Word} (h : p.Touches a) :
    (p.layer d).over m a = image d (p.source a) := by
  have hcovers : (p.layer d).covers a = true := decide_eq_true h
  rw [over_covered m hcovers]
  rfl

/-- the first call of readseg, as if it were for a segment -/
def headerPage : Proghdr := { pOffset := 0#32, pPa := elfhdr, pMemsz := 4096#32 }

theorem readseg_headerPage (d : Disk) (m : Ram) {fuel : ℕ} (hf : enoughRounds ≤ fuel) :
    readseg d fuel elfhdr 4096#32 0#32 m = some ((headerPage.layer d).over m) := by
  have hend : headerPage.endPa ≤ 2 ^ 32 - sectsize := by decide
  exact (loadSeg_eq hend fuel).2 hf

theorem headerPage_over (d : Disk) (m : Ram) {a : Word} (ha : InScratch a) :
    (headerPage.layer d).over m a = firstPage d a := by
  obtain ⟨hlo, hhi⟩ := ha
  have hbase : elfhdr.toNat = 65536 := rfl
  have hpa : headerPage.pPa.toNat = 65536 := rfl
  have hoff : headerPage.pOffset.toNat = 0 := rfl
  have hend : headerPage.endPa = 69632 := by decide
  rw [hbase] at hlo hhi
  have htouch : headerPage.Touches a := by
    rw [Proghdr.Touches, hpa, hend, sectsize]
    omega
  have hsource : headerPage.source a = a.toNat - elfhdr.toNat := by
    rw [Proghdr.source, hpa, hoff, hbase, sectsize]
    omega
  rw [layer_over_touched m htouch, hsource, firstPage]

namespace KernelImage

variable {d : Disk} {segs : List Proghdr} {e : Word} (h : KernelImage d segs e)
include h

theorem offScratch : ∀ p ∈ segs, p.OffScratch ∧ p.endPa ≤ 2 ^ 32 := by
  intro p hp
  have habove := h.above p hp
  refine ⟨Or.inr ?_, le_trans (h.tails.fits p hp) (Nat.sub_le _ _)⟩
  exact le_trans (by decide) habove

/-- the loop over the headers, from any memory that has the first page in the scratch space -/
theorem bootLoop_loads {m : Ram} (hm : ∀ a, InScratch a → m a = firstPage d a) {fuel : ℕ} (hf : enoughRounds ≤ fuel) :
    bootLoop d fuel (elfhdr + ld32 m (elfhdr + 28#32) + 32#32 * (ld16 m (elfhdr + 44#32)).setWidth 32)
      (ld16 m (elfhdr + 44#32)).toNat (elfhdr + ld32 m (elfhdr + 28#32)) m =
      some (stack m (segs.map (Proghdr.layer d))) := by
  have hphoff : ld32 m (elfhdr + 28#32) = Jos.phoff d := ld32_scratch hm (by decide) (by decide)
  have hphnum : ld16 m (elfhdr + 44#32) = ld16 (firstPage d) (elfhdr + 44#32) := ld16_scratch hm (by decide) (by decide)
  have hbase : elfhdr.toNat = 65536 := rfl
  have hroom := h.phoff
  have hph : (elfhdr + Jos.phoff d).toNat = 65536 + (Jos.phoff d).toNat := by
    rw [BitVec.toNat_add, hbase]
    omega
  have heph : (elfhdr + Jos.phoff d + 32#32 * (ld16 (firstPage d) (elfhdr + 44#32)).setWidth 32).toNat =
      (elfhdr + Jos.phoff d).toNat + 32 * segs.length := by
    rw [BitVec.toNat_add, BitVec.toNat_mul, BitVec.toNat_setWidth, h.phnum, hph]
    simp
    omega
  rw [hphoff, hphnum, h.phnum, bootLoop_eq h.offScratch fuel (by rw [hph, hbase]; omega) heph.symm
    (by rw [heph, hph, hbase]; omega) (headers_scratch hm (by rw [hph, hbase]; omega) (by rw [hph, hbase]; omega) h.headers)]
  exact (loadSegs_eq h.tails.fits fuel).2 hf

end KernelImage

/-- the bytes of the segments under the layers of all of them -/
theorem TailsKept.stack_byte {d : Disk} {segs : List Proghdr} (h : TailsKept d segs) (hc : ∀ p ∈ segs, p.Congruent)
    (m : Ram) : ∀ p ∈ segs, ∀ k < p.pMemsz.toNat,
      stack m (segs.map (Proghdr.layer d)) (p.pPa + BitVec.ofNat 32 k) = image d (p.pOffset.toNat + k) := by
  obtain ⟨fuel, t, hrun, hbytes⟩ := h.loaded hc m
  rw [← (loadSegs_eq h.fits fuel).1 t hrun]
  exact hbytes

/-- **bootmain loads the kernel.** Whatever is in memory, it finds the headers in the image, brings every byte of every
segment to its physical address and calls the entry point. -/
theorem bootmain_loads {d : Disk} {segs : List Proghdr} {e : Word} (h : KernelImage d segs e) (m : Ram) :
    ∃ t, (∀ fuel, enoughRounds ≤ fuel → bootmain d fuel m = some (.entry e t)) ∧
      ∀ p ∈ segs, ∀ k < p.pMemsz.toNat, t (p.pPa + BitVec.ofNat 32 k) = image d (p.pOffset.toNat + k) := by
  have hscratch : ∀ a, InScratch a →
      stack ((headerPage.layer d).over m) (segs.map (Proghdr.layer d)) a = firstPage d a := by
    intro a ha
    rw [← headerPage_over d m ha]
    apply stack_of_uncovered
    intro l hl
    obtain ⟨p, hp, rfl⟩ := List.mem_map.1 hl
    exact decide_eq_false (not_touches_scratch (h.offScratch p hp).1 ha)
  refine ⟨stack ((headerPage.layer d).over m) (segs.map (Proghdr.layer d)), ?_, h.tails.stack_byte h.congruent _⟩
  intro fuel hf
  have hmagic : ld32 ((headerPage.layer d).over m) elfhdr = elfMagic :=
    (ld32_scratch (fun a ha => headerPage_over d m ha) (le_refl _) (by decide)).trans h.magic
  have hloop := h.bootLoop_loads (fun a ha => headerPage_over d m ha) hf
  have hentry : ld32 (stack ((headerPage.layer d).over m) (segs.map (Proghdr.layer d))) (elfhdr + 24#32) = e :=
    (ld32_scratch hscratch (by decide) (by decide)).trans h.entry
  simp only [bootmain, readseg_headerPage d m hf, Option.bind_eq_bind, Option.bind_some, hmagic, hloop, ne_eq,
    not_true_eq_false, if_false, hentry]
  rfl

/-! ## Into C -/

/-- memory as the kernel sees it from KERNBASE on -/
def linkView (m : Ram) : Image := fun va => m (va - kernbase)

/-- `memset(edata, 0, end - edata)`, the first statement of i386_init -/
def clearBss (edata kend : Word) (cpu : Cpu) : Image := (Asm.memset edata 0#32 (kend - edata) cpu).2.mem

/-- the BSS is in the image, behind the boot stack -/
structure Bss (L : Layout) (edata kend : Word) : Prop where
  inImage : InImage edata (kend - edata).toNat
  stack : L.bootstacktop.toNat ≤ edata.toNat

/-- one of the n bytes below the return address on the boot stack: C frames -/
def InFrames (L : Layout) (n : ℕ) (va : Word) : Prop := (va - (L.bootstacktop - 4#32 - BitVec.ofNat 32 n)).toNat < n

/-- what the kernel finds at the link address va once the BSS is clear, b being in the image for it -/
def startByte (L : Layout) (edata kend va : Word) (b : Byte) : Byte :=
  if (va - edata).toNat < (kend - edata).toNat then 0#8
  else (wordBytes L.spin).getD (va - (L.bootstacktop - 4#32)).toNat b

theorem Placed.loaded {d : Disk} {segs : List Proghdr} {x : Word} {n : ℕ} {f : ℕ → Byte} (h : Placed d segs x n f)
    {t : Ram} (ht : ∀ p ∈ segs, ∀ k < p.pMemsz.toNat, t (p.pPa + BitVec.ofNat 32 k) = image d (p.pOffset.toNat + k)) :
    ∀ k < n, t (Layout.reloc x + BitVec.ofNat 32 k) = f k := by
  intro k hk
  obtain ⟨p, hp, j, hj, haddr, hbyte⟩ := h k hk
  rw [haddr, ht p hp j hj, hbyte]

/-- the two stores of entry.S and the memset, at an address of the image -/
theorem clearBss_linkView {L : Layout} {edata kend va : Word} {t : Ram} {cpu : Cpu} (hva : InImage va 1)
    (hmem : cpu.mem va = linkView (put (warmBoot t) (Layout.reloc (L.bootstacktop - 4#32)) (wordBytes L.spin)) va) :
    clearBss edata kend cpu va = startByte L edata kend va (t (Layout.reloc va)) := by
  have hrel := reloc_toNat hva
  obtain ⟨hlo, hhi⟩ := hva
  have hsub : Layout.reloc va - Layout.reloc (L.bootstacktop - 4#32) = va - (L.bootstacktop - 4#32) := by
    unfold Layout.reloc
    ring
  have hwarm : warmBoot t (Layout.reloc va) = t (Layout.reloc va) := by
    apply put_off
    have hle : (0x472#32 : Word) ≤ Layout.reloc va := by
      change 1138 ≤ (Layout.reloc va).toNat
      omega
    rw [BitVec.toNat_sub_of_le hle]
    change 2 ≤ (Layout.reloc va).toNat - 1138
    omega
  rw [clearBss, Asm.memset_eq, filled, startByte]
  by_cases hbss : (va - edata).toNat < (kend - edata).toNat
  · rw [if_pos hbss, if_pos hbss]
    rfl
  · rw [if_neg hbss, if_neg hbss, hmem]
    change put (warmBoot t) (Layout.reloc (L.bootstacktop - 4#32)) (wordBytes L.spin) (Layout.reloc va) = _
    rw [put, hsub, hwarm]

/-- the return address is below the BSS -/
theorem clearBss_return {L : Layout} {edata kend : Word} {m : Ram} {cpu : Cpu} (hl : L.Linked) (hb : Bss L edata kend)
    (hmem : ∀ k < 4, cpu.mem (L.bootstacktop - 4#32 + BitVec.ofNat 32 k) =
      linkView (put m (Layout.reloc (L.bootstacktop - 4#32)) (wordBytes L.spin)) (L.bootstacktop - 4#32 + BitVec.ofNat 32 k)) :
    load32 (clearBss edata kend cpu) (L.bootstacktop - 4#32) = L.spin := by
  obtain ⟨hlo, hhi⟩ := hl.stack
  obtain ⟨hblo, hbhi⟩ := hb.inImage
  have habove := hb.stack
  rw [show kstksize = 32768#32 from rfl] at hlo hhi
  rw [← ld32_put m (Layout.reloc (L.bootstacktop - 4#32)) L.spin]
  have hbyte : ∀ k < 4, clearBss edata kend cpu (L.bootstacktop - 4#32 + BitVec.ofNat 32 k) =
      put m (Layout.reloc (L.bootstacktop - 4#32)) (wordBytes L.spin)
        (Layout.reloc (L.bootstacktop - 4#32) + BitVec.ofNat 32 k) := by
    intro k hk
    have hout : ¬ (L.bootstacktop - 4#32 + BitVec.ofNat 32 k - edata).toNat < (kend - edata).toNat := by
      rw [BitVec.toNat_sub, BitVec.toNat_add, BitVec.toNat_ofNat]
      bv_omega
    have haddr : L.bootstacktop - 4#32 + BitVec.ofNat 32 k - kernbase =
        Layout.reloc (L.bootstacktop - 4#32) + BitVec.ofNat 32 k := by
      unfold Layout.reloc
      ring
    rw [clearBss, Asm.memset_eq, filled, if_neg hout, hmem k hk, linkView, haddr]
  have h0 := hbyte 0 (by decide)
  rw [BitVec.add_zero, BitVec.add_zero] at h0
  rw [load32, ld32, h0, hbyte 1 (by decide), hbyte 2 (by decide), hbyte 3 (by decide)]

/-- the return address is above the frames -/
theorem not_inFrames (L : Layout) {n k : ℕ} (hn : n + 4 ≤ kstksize.toNat) (hk : k < 4) :
    ¬ InFrames L n (L.bootstacktop - 4#32 + BitVec.ofNat 32 k) := by
  have hsub : L.bootstacktop - 4#32 + BitVec.ofNat 32 k - (L.bootstacktop - 4#32 - BitVec.ofNat 32 n) =
      BitVec.ofNat 32 (n + k) := by
    rw [BitVec.ofNat_add]
    ring
  have hsize : kstksize.toNat = 32768 := rfl
  rw [InFrames, hsub, BitVec.toNat_ofNat]
  omega

/-- **From the disk to C.** Let the entry code, the entry page tables, the boot stack and the BSS of a kernel be in an image
that bootmain accepts. Whatever is in memory and in the registers at the start, as long as paging is off: the machine comes
to i386_init through bootmain and entry.S without a fault. Then it can write the whole BSS, and after the memset each byte
of the image that is linked below KERNBASE+4MB is at its link address, but for the BSS, which is zero, and the boot stack,
where the return address stands above the frames. -/
theorem boot_to_c (d : Disk) (segs : List Proghdr) (L : Layout) (edata kend : Word) (text : ℕ → Byte)
    (himage : KernelImage d segs (Layout.reloc L.entry)) (hl : L.Linked) (hb : Bss L edata kend)
    (htext : Placed d segs L.entry 52 text)
    (hcode : CodeAt (fun a => text (a - Layout.reloc L.entry).toNat) (Layout.reloc L.entry) L.entryCode)
    (hpgdir : Placed d segs L.pgdir 4096 (arrayByte (entryPgdir L.pgtable)))
    (hpgtable : Placed d segs L.pgtable 4096 (arrayByte entryPgtable)) (s : Machine) (hpg : s.cr0 &&& cr0PG = 0) :
    ∃ t u, (∀ fuel, enoughRounds ≤ fuel → bootmain d fuel s.mem = some (.entry (Layout.reloc L.entry) t)) ∧
      Machine.run 11 { s with eip := Layout.reloc L.entry, mem := t } = some u ∧ u.eip = L.i386Init ∧ u.ebp = 0#32 ∧
      u.esp = L.bootstacktop - 4#32 ∧ (∀ write va, u.phys write va = entryMap write va) ∧
      (∀ va, (va - edata).toNat < (kend - edata).toNat → u.phys true va = some (va - kernbase)) ∧
      ∀ (n : ℕ) (cpu : Cpu), n + 4 ≤ kstksize.toNat → (∀ va, ¬ InFrames L n va → cpu.mem va = linkView u.mem va) →
        load32 (clearBss edata kend cpu) u.esp = L.spin ∧
        ∀ p ∈ segs, ∀ k < p.pMemsz.toNat, InImage (p.pPa + BitVec.ofNat 32 k + kernbase) 1 →
          ¬ InFrames L n (p.pPa + BitVec.ofNat 32 k + kernbase) →
          clearBss edata kend cpu (p.pPa + BitVec.ofNat 32 k + kernbase) =
            startByte L edata kend (p.pPa + BitVec.ofNat 32 k + kernbase) (image d (p.pOffset.toNat + k)) := by
  obtain ⟨t, hboot, hbytes⟩ := bootmain_loads himage s.mem
  have htables : EntryTables t L := EntryTables.of_bytes (hpgdir.loaded hbytes) (hpgtable.loaded hbytes)
  have hcodeLen : codeLen L.entryCode = 52 := rfl
  have hentry : CodeAt t (Layout.reloc L.entry) L.entryCode := by
    apply hcode.congr
    intro k hk
    rw [htext.loaded hbytes k (hcodeLen ▸ hk), offset_toNat (by omega)]
  obtain ⟨hrun, hp⟩ := hl.run_entry (s := { s with eip := Layout.reloc L.entry, mem := t }) hentry htables rfl hpg
  refine ⟨t, _, hboot, hrun, rfl, rfl, rfl, hp.phys hl, ?_, ?_⟩
  · intro va hva
    have hobj := entryMap_high hb.inImage hva true
    have hva' : edata + BitVec.ofNat 32 (va - edata).toNat = va := by
      rw [BitVec.ofNat_toNat, BitVec.setWidth_eq]
      ring
    have hpa : Layout.reloc edata + BitVec.ofNat 32 (va - edata).toNat = va - kernbase := by
      rw [BitVec.ofNat_toNat, BitVec.setWidth_eq, Layout.reloc]
      ring
    rw [hp.phys hl, ← hpa, ← hobj, hva']
  · intro n cpu hn hmem
    refine ⟨clearBss_return hl hb fun k hk => hmem _ (not_inFrames L hn hk), ?_⟩
    intro p hps k hk hva hframe
    have hrel : Layout.reloc (p.pPa + BitVec.ofNat 32 k + kernbase) = p.pPa + BitVec.ofNat 32 k :=
      add_sub_cancel_right _ _
    rw [clearBss_linkView (t := t) hva (hmem _ hframe), hrel, hbytes p hps k hk]

/-- the code of a kernel -/
def codeSeg : Proghdr := { pOffset := 0x1000#32, pPa := 0x100000#32, pMemsz := 0x8000#32 }

/-- its boot stack, the tables and the BSS -/
def dataSeg : Proghdr := { pOffset := 0x9000#32, pPa := 0x108000#32, pMemsz := 0xE000#32 }

def kernelDisk : Disk := fun drive i =>
  if drive then 0#8
  else if i - sectsize < 116 then
    ((headerWords codeSeg dataSeg).getD ((i - sectsize) / 4) 0#32 >>> (8 * (i % 4))).setWidth 8
  else entryRam kernelLayout entryText (BitVec.ofNat 32 (0xFF000 + (i - sectsize)))

theorem image_kernelDisk {i : ℕ} (h : 116 ≤ i) :
    image kernelDisk i = entryRam kernelLayout entryText (BitVec.ofNat 32 (0xFF000 + i)) := by
  have hi : sectsize + i - sectsize = i := Nat.add_sub_cancel_left _ _
  rw [image, kernelDisk, if_neg Bool.false_ne_true, hi, if_neg (by omega)]

theorem kernelDisk_image : KernelImage kernelDisk [codeSeg, dataSeg] (Layout.reloc kernelLayout.entry) := by
  have hc : ∀ p ∈ [codeSeg, dataSeg], p.Congruent := by unfold Proghdr.Congruent; decide
  refine ⟨by decide +kernel, by decide +kernel, by decide +kernel, by decide +kernel, ⟨by decide +kernel, by decide +kernel,
    trivial⟩, hc, by decide, tailsKept_of_apart hc (by decide) (by decide)⟩

/-- an object in the data segment -/
theorem kernelDisk_placed {x : Word} {n o : ℕ} {f : ℕ → Byte} (hx : Layout.reloc x = BitVec.ofNat 32 (0x108000 + o))
    (ho : o + n ≤ 0xE000)
    (hf : ∀ k < n, entryRam kernelLayout entryText (Layout.reloc x + BitVec.ofNat 32 k) = f k) :
    Placed kernelDisk [codeSeg, dataSeg] x n f := by
  intro k hk
  have hsize : dataSeg.pMemsz.toNat = 0xE000 := rfl
  have hoff : dataSeg.pOffset.toNat = 0x9000 := rfl
  refine ⟨dataSeg, by simp, o + k, by omega, ?_, ?_⟩
  · rw [hx, BitVec.ofNat_add, BitVec.ofNat_add, BitVec.add_assoc]
    rfl
  · have haddr : BitVec.ofNat 32 (0xFF000 + (0x9000 + (o + k))) = Layout.reloc x + BitVec.ofNat 32 k := by
      rw [hx, ← BitVec.ofNat_add]
      congr 1
      omega
    rw [hoff, image_kernelDisk (by omega), haddr, hf k hk]

theorem kernelDisk_text : Placed kernelDisk [codeSeg, dataSeg] kernelLayout.entry 52 fun k => entryText.getD k 0#8 := by
  intro k hk
  have hsize : codeSeg.pMemsz.toNat = 0x8000 := rfl
  have hoff : codeSeg.pOffset.toNat = 0x1000 := rfl
  refine ⟨codeSeg, by simp, 12 + k, by omega, ?_, ?_⟩
  · rw [BitVec.ofNat_add, ← BitVec.add_assoc]
    rfl
  · rw [hoff, image_kernelDisk (by omega)]
    interval_cases k <;> decide +kernel

theorem kernelDisk_bss : Bss kernelLayout 0xF0114000#32 0xF0116000#32 := by
  constructor <;> decide

/-- a kernel whose code, tables, stack and BSS are on the disk, started in memory that is full of ones -/
theorem boot_to_c_kernel : ∃ t u, bootmain kernelDisk enoughRounds (fun _ => 1#8) = some (.entry 0x10000C#32 t) ∧
    Machine.run 11 ⟨0x10000C#32, 0#32, 0x7BF8#32, 0x7BDC#32, 0x11#32, 0#32, t⟩ = some u ∧ u.eip = 0xF0100040#32 ∧
    clearBss 0xF0114000#32 0xF0116000#32 ⟨linkView u.mem, 0#32, 0#32, 0#32, 0#32, false⟩ 0xF010000C#32 = 0x66#8 ∧
    clearBss 0xF0114000#32 0xF0116000#32 ⟨linkView u.mem, 0#32, 0#32, 0#32, 0#32, false⟩ 0xF0115000#32 = 0#8 := by
  obtain ⟨t, u, hboot, hrun, heip, -, -, -, -, hstart⟩ := boot_to_c kernelDisk [codeSeg, dataSeg] kernelLayout
    0xF0114000#32 0xF0116000#32 (fun k => entryText.getD k 0#8) kernelDisk_image kernelLayout_linked kernelDisk_bss
    kernelDisk_text (by refine ⟨?_, ?_, ?_, ?_, ?_, ?_, ?_, ?_, ?_, ?_, ?_, ?_, trivial⟩ <;> decide +kernel)
    (kernelDisk_placed (o := 0xA000) (by decide) (by decide) fun _ hk => entryRam_pgdir entryText hk)
    (kernelDisk_placed (o := 0xB000) (by decide) (by decide) fun _ hk => entryRam_pgtable entryText hk)
    ⟨0#32, 0#32, 0x7BF8#32, 0x7BDC#32, 0x11#32, 0#32, fun _ => 1#8⟩ (by decide)
  obtain ⟨-, hview⟩ := hstart 0 ⟨linkView u.mem, 0#32, 0#32, 0#32, 0#32, false⟩ (by decide) fun va _ => rfl
  refine ⟨t, u, hboot _ (le_refl _), hrun, heip, ?_, ?_⟩
  · refine (hview codeSeg (by simp) 12 (by decide) (by decide) (Nat.not_lt_zero _)).trans ?_
    have himage : image kernelDisk (codeSeg.pOffset.toNat + 12) = 0x66#8 := by decide +kernel
    rw [himage]
    decide
  · exact (hview dataSeg (by simp) 0xD000 (by decide) (by decide) (Nat.not_lt_zero _)).trans (if_pos (by decide))

end Jos
