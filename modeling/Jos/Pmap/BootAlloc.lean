/-
Sequences of boot_alloc calls.

`bootAllocs kend ns` makes the calls boot_alloc(n_1), boot_alloc(n_2), … one after the other; the sequence ends with the
first panic. `brk s` is the free address the next call starts from: nextfree, or the end of the kernel rounded up before
the first call. Results:
- `run_bootAlloc_brk`: every call, in terms of `brk`;
- `bootAllocs_placed`: the blocks are placed one behind the other between the end of the kernel and KERNBASE+4MB;
- `boot_alloc_discipline`: aligned and disjoint blocks, no wrap, panic exactly beyond 4MB, boot_alloc(0) only looks;
- `boot_alloc_in_memory`: the limit is 4MB and not npages*PGSIZE, so the calls keep to the detected memory exactly if
  each of them does by itself; for a kernel below 4MB all sequences do so exactly if the machine has 4MB;
- `boot_alloc_beyond_memory`: with 1120KB of memory and a kernel that ends in its last page, the first call of mem_init
  already gets a page the machine does not have.
-/
import Jos.Pmap.Startup
import Jos.Lib.Bump

namespace Jos

open Jos.Lib

def bootAllocs (kend : Word) : List Word → K (List Word)
  | [] => return []
  | n :: ns => do
    let r ← bootAlloc kend n
    let rs ← bootAllocs kend ns
    return r :: rs

/-- the free address the next call starts from -/
def brk (s : St) (kend : Word) : Word := if s.nextfree = 0#32 then roundup kend pgsize else s.nextfree

/-- the page-aligned addresses of the 4MB that entry_pgdir maps -/
structure Mapped4M (e : Word) : Prop where
  ge : 0xF0000000 ≤ e.toNat
  le : e.toNat ≤ 0xF0400000
  aligned : e.toNat % 4096 = 0

/-- the blocks [r_i, r_i+n_i) -/
def blocks (rs ns : List Word) : List (ℕ × ℕ) := (rs.zip ns).map fun b => (b.1.toNat, b.2.toNat)

/-! ## One call -/

section Call

variable {s : St} {kend e n : Word}

theorem Mapped4M.kernbase_le (h : Mapped4M e) : kernbase ≤ e := by
  have h1 := h.ge
  rw [BitVec.le_def]
  exact h1

theorem Mapped4M.ne_zero (h : Mapped4M e) : e ≠ 0#32 := fun h0 => by
  have h1 := h.ge
  rw [h0] at h1
  exact absurd h1 (by decide)

theorem Mapped4M.le_bytesLeft (h : Mapped4M e) : n ≤ bytesLeft e ↔ e.toNat + n.toNat ≤ 0xF0400000 := by
  have h1 := h.le
  rw [BitVec.le_def, bytesLeft_toNat h.ge h1]
  omega

/-- the next free address behind a block that fits -/
theorem Mapped4M.next (h : Mapped4M e) (hn : n ≤ bytesLeft e) :
    Mapped4M (roundup (e + n) pgsize) ∧ (roundup (e + n) pgsize).toNat = alignUp 4096 (e.toNat + n.toNat) := by
  have hsum := h.le_bytesLeft.1 hn
  have hge := h.ge
  have hadd : (e + n).toNat = e.toNat + n.toNat := by rw [BitVec.toNat_add]; omega
  have hround : (roundup (e + n) pgsize).toNat = alignUp 4096 (e.toNat + n.toNat) := by
    rw [roundup_pgsize_toNat (by omega), hadd, alignUp]
  have h1 := le_alignUp (a := 4096) (by decide) (e.toNat + n.toNat)
  have h2 := alignUp_le (a := 4096) (by decide) (e.toNat + n.toNat) hsum (by decide)
  have h3 := Nat.mod_eq_zero_of_dvd (dvd_alignUp (a := 4096) (e.toNat + n.toNat))
  exact ⟨⟨by omega, by omega, by omega⟩, hround⟩

/-- every call from a free address in the mapped 4MB -/
theorem run_bootAlloc_brk (h : Mapped4M (brk s kend)) (n : Word) : (bootAlloc kend n).run s =
    if n ≤ bytesLeft (brk s kend) then .ok (brk s kend, s.setNextfree (roundup (brk s kend + n) pgsize))
    else .error (.panic "boot_alloc() - nedostatok volnej pamate na alokovanie %d bytov\n") := by
  -- from the second call on nextfree is the free address
  have hgen : ∀ t : St, Mapped4M t.nextfree → (bootAlloc kend n).run t =
      if n ≤ bytesLeft t.nextfree then .ok (t.nextfree, t.setNextfree (roundup (t.nextfree + n) pgsize))
      else .error (.panic "boot_alloc() - nedostatok volnej pamate na alokovanie %d bytov\n") := fun t ht => by
    have hle := ht.le
    by_cases hn : n ≤ bytesLeft t.nextfree
    · rw [if_pos hn, run_bootAlloc_fits kend ht.kernbase_le ht.aligned (by omega) hn]
    · have h0 : n ≠ 0#32 := fun h0 => hn (by rw [h0, BitVec.le_def]; exact Nat.zero_le _)
      rw [if_neg hn, run_bootAlloc ht.kernbase_le h0, if_neg hn]
  by_cases h0 : s.nextfree = 0#32
  · have hb : brk s kend = roundup kend pgsize := if_pos h0
    rw [hb] at h ⊢
    rw [run_bootAlloc_first h0 h.ne_zero, hgen (s.setNextfree (roundup kend pgsize)) h, St.setNextfree_nextfree,
      St.setNextfree_setNextfree]
  · have hb : brk s kend = s.nextfree := if_neg h0
    rw [hb] at h ⊢
    exact hgen s h

theorem brk_setNextfree {v : Word} (h : v ≠ 0#32) : brk (s.setNextfree v) kend = v := if_neg h

theorem Mapped4M.of_end (hge : kernbase ≤ roundup kend pgsize) (hle : roundup kend pgsize ≤ kernbase + 0x400000#32) :
    Mapped4M (roundup kend pgsize) ∧ (roundup kend pgsize).toNat = alignUp 4096 kend.toNat := by
  have e1 : (kernbase + 0x400000#32).toNat = 0xF0400000 := by decide
  have e2 : kernbase.toNat = 0xF0000000 := by decide
  rw [BitVec.le_def, e2] at hge
  rw [BitVec.le_def, e1] at hle
  have hk : kend.toNat + 4095 < 4294967296 := by
    by_contra hk
    -- the sum would wrap to an address in the first page
    have h1 : (kend + pgsize - 1#32).toNat = kend.toNat + 4095 - 4294967296 := by
      have := kend.isLt
      simp only [pgsize]
      bv_omega
    have h2 : (roundup kend pgsize).toNat ≤ (kend + pgsize - 1#32).toNat := by
      rw [roundup, rounddown, BitVec.toNat_sub_of_le (by
        rw [BitVec.le_def, BitVec.toNat_umod]; exact Nat.mod_le _ _)]
      omega
    have := kend.isLt
    omega
  have hr := roundup_pgsize_toNat hk
  exact ⟨⟨hge, hle, by omega⟩, hr⟩

end Call

/-! ## Whole sequences -/

section Sequence

variable {s t : St} {kend : Word} {ns rs : List Word}

theorem bootAllocs_placed (h : Mapped4M (brk s kend)) (hrun : (bootAllocs kend ns).run s = .ok (rs, t)) :
    rs.length = ns.length ∧ Mapped4M (brk t kend) ∧ (ns ≠ [] → t.nextfree = brk t kend) ∧
      Placed 4096 (brk s kend).toNat (blocks rs ns) (brk t kend).toNat := by
  induction ns generalizing s rs with
  | nil =>
    obtain ⟨rfl, rfl⟩ := Prod.ext_iff.1 (Except.ok.inj hrun)
    exact ⟨rfl, h, fun hn => absurd rfl hn, rfl⟩
  | cons n ns ih =>
    rw [bootAllocs, Prog.bind_ok] at hrun
    obtain ⟨r, u, hu, hrun⟩ := hrun
    obtain ⟨rs', t', ht', hrun⟩ := Prog.bind_ok.1 hrun
    obtain ⟨rfl, rfl⟩ := Prod.ext_iff.1 (Except.ok.inj hrun)
    rw [run_bootAlloc_brk h] at hu
    split_ifs at hu with hn
    obtain ⟨rfl, rfl⟩ := Prod.ext_iff.1 (Except.ok.inj hu)
    obtain ⟨hm, hnext⟩ := h.next hn
    have hb : brk (s.setNextfree (roundup (brk s kend + n) pgsize)) kend = roundup (brk s kend + n) pgsize :=
      brk_setNextfree hm.ne_zero
    obtain ⟨hlen, hmt, hnf, hp⟩ := ih (by rw [hb]; exact hm) ht'
    rw [hb, hnext] at hp
    refine ⟨by simp [hlen], hmt, fun _ => ?_, rfl, hp⟩
    cases ns with
    | cons n' ns => exact hnf (by simp)
    | nil =>
      -- after the only call nextfree is set
      obtain ⟨-, rfl⟩ := Prod.ext_iff.1 (Except.ok.inj ht')
      exact hb.symm

end Sequence

/-- the 32-bit computations of boot_alloc, for a request n at the free address e, give the numbers they stand for -/
structure ExactCall (kend e n : Word) : Prop where
  round_end : (kend + pgsize).toNat = kend.toNat + 4096
  paddr_ge : 0xF0000000 ≤ e.toNat
  paddr : (e - kernbase).toNat = e.toNat - 0xF0000000
  left_ge : e.toNat - 0xF0000000 ≤ 0x400000
  left : (bytesLeft e).toNat = 0x400000 - (e.toNat - 0xF0000000)
  next : n ≤ bytesLeft e → (e + n).toNat = e.toNat + n.toNat
  round_next : n ≤ bytesLeft e → (e + n + pgsize).toNat = e.toNat + n.toNat + 4096

theorem Mapped4M.exactCall {kend e : Word} (h : Mapped4M e) (hk : kend.toNat ≤ 0xF0400000) (n : Word) :
    ExactCall kend e n := by
  have hge := h.ge
  have hle := h.le
  have hp : pgsize.toNat = 4096 := rfl
  have hkb : kernbase.toNat = 0xF0000000 := rfl
  refine ⟨?_, hge, ?_, by omega, ?_, ?_, ?_⟩
  · rw [BitVec.toNat_add, hp]; omega
  · rw [BitVec.toNat_sub_of_le h.kernbase_le, hkb]
  · rw [bytesLeft_toNat hge hle]; omega
  · intro hn
    have := h.le_bytesLeft.1 hn
    rw [BitVec.toNat_add]; omega
  · intro hn
    have := h.le_bytesLeft.1 hn
    rw [BitVec.toNat_add, BitVec.toNat_add, hp]; omega

/-- **The discipline of boot_alloc.** After any sequence of calls that has not panicked, from a kernel that ends in the
4MB above KERNBASE: the blocks are page-aligned, above `end`, inside the 4MB and disjoint; boot_alloc(0) returns their
end rounded up and makes no difference to later calls; the next call computes without wrapping and panics exactly when
the request exceeds the bytes left below 4MB. -/
theorem boot_alloc_discipline (s : St) (kend : Word) (h0 : s.nextfree = 0#32) (hge : kernbase ≤ roundup kend pgsize)
    (hle : roundup kend pgsize ≤ kernbase + 0x400000#32) (ns rs : List Word) (t : St)
    (hrun : (bootAllocs kend ns).run s = .ok (rs, t)) :
    rs.length = ns.length ∧
    (∀ b ∈ blocks rs ns, b.1 % 4096 = 0 ∧ kend.toNat ≤ b.1 ∧ 0xF0000000 ≤ b.1 ∧ b.1 + b.2 ≤ 0xF0400000) ∧
    (blocks rs ns).Pairwise (fun b c => b.1 + b.2 ≤ c.1) ∧
    ∃ r u, (bootAlloc kend 0#32).run t = .ok (r, u) ∧ r.toNat = alignUp 4096 (topOf kend.toNat (blocks rs ns)) ∧
      u = t.setNextfree r ∧ (ns ≠ [] → u = t) ∧
      ∀ n, (bootAlloc kend n).run u = (bootAlloc kend n).run t ∧ ExactCall kend r n ∧
        ((∃ msg, (bootAlloc kend n).run t = .error (.panic msg)) ↔ 0xF0400000 - r.toNat < n.toNat) := by
  obtain ⟨hk, hround⟩ := Mapped4M.of_end hge hle
  have hb : brk s kend = roundup kend pgsize := if_pos h0
  have hpos : 0 < 4096 := by decide
  obtain ⟨hlen, hm, hnf, hp⟩ := bootAllocs_placed (by rw [hb]; exact hk) hrun
  rw [hb, hround] at hp
  have hkle : kend.toNat ≤ alignUp 4096 kend.toNat := le_alignUp hpos _
  have hmax := hm.le
  have hkge := hk.ge
  have hkmax := hk.le
  refine ⟨hlen, ?_, hp.disjoint hpos, brk t kend, t.setNextfree (brk t kend), ?_, ?_, rfl, ?_,
    fun n => ⟨?_, hm.exactCall (by omega) n, ?_⟩⟩
  · intro b hbm
    have h1 := Nat.mod_eq_zero_of_dvd ((hp.aligned (dvd_alignUp _)).1 b hbm)
    have h2 := hp.within hpos b hbm
    exact ⟨h1, by omega, by omega, by omega⟩
  · have hz : (0#32 : Word) ≤ bytesLeft (brk t kend) := by rw [BitVec.le_def]; exact Nat.zero_le _
    have hnext : roundup (brk t kend + 0#32) pgsize = brk t kend := by
      apply BitVec.eq_of_toNat_eq
      rw [(hm.next hz).2]
      exact alignUp_of_dvd hpos (Nat.dvd_of_mod_eq_zero hm.aligned)
    rw [run_bootAlloc_brk hm, if_pos hz, hnext]
  · exact hp.top hpos rfl
  · intro hn
    rw [← hnf hn, St.setNextfree_self]
  · have hbu : brk (t.setNextfree (brk t kend)) kend = brk t kend := brk_setNextfree hm.ne_zero
    rw [run_bootAlloc_brk hm, run_bootAlloc_brk (by rw [hbu]; exact hm), hbu, St.setNextfree_setNextfree]
  · rw [run_bootAlloc_brk hm]
    have hiff := hm.le_bytesLeft (n := n)
    split_ifs with hn
    · refine ⟨?_, ?_⟩
      · rintro ⟨msg, hmsg⟩
        cases hmsg
      · intro h
        have := hiff.1 hn
        omega
    · refine ⟨fun _ => ?_, fun _ => ⟨_, rfl⟩⟩
      rw [hiff] at hn
      omega

/-- a page and 20000 bytes, then a request that does not fit -/
theorem boot_alloc_discipline_cold : ∃ t u, (bootAllocs 0xF0117123#32 [pgsize, 20000#32]).run coldSt =
      .ok ([0xF0118000#32, 0xF0119000#32], t) ∧
    (bootAlloc 0xF0117123#32 0#32).run t = .ok (0xF011E000#32, u) ∧ u = t ∧
    ∃ msg, (bootAlloc 0xF0117123#32 0x2E2001#32).run t = .error (.panic msg) := by
  have hm : Mapped4M (brk coldSt 0xF0117123#32) := ⟨by decide, by decide, by decide⟩
  have h1 : (bootAlloc 0xF0117123#32 pgsize).run coldSt = .ok (0xF0118000#32, coldSt.setNextfree 0xF0119000#32) := by
    rw [run_bootAlloc_brk hm, if_pos (by decide)]
    rfl
  have h2 : (bootAlloc 0xF0117123#32 20000#32).run (coldSt.setNextfree 0xF0119000#32) =
      .ok (0xF0119000#32, coldSt.setNextfree 0xF011E000#32) := by
    rw [run_bootAlloc_brk ⟨by decide, by decide, by decide⟩, if_pos (by decide)]
    rfl
  have hrun : (bootAllocs 0xF0117123#32 [pgsize, 20000#32]).run coldSt =
      .ok ([0xF0118000#32, 0xF0119000#32], coldSt.setNextfree 0xF011E000#32) := by
    rw [bootAllocs, Prog.run_bind h1, bootAllocs, StateT.run_bind, Prog.run_bind h2]
    rfl
  obtain ⟨-, -, -, r, u, hz, hr, -, hu, hnext⟩ := boot_alloc_discipline coldSt 0xF0117123#32 rfl (by decide) (by decide)
    _ _ _ hrun
  have hr' : r = 0xF011E000#32 := by
    apply BitVec.eq_of_toNat_eq
    rw [hr]
    decide
  subst hr'
  exact ⟨_, u, hrun, hz, hu (by simp), (hnext _).2.2.2 (by decide)⟩

/-! ## The detected memory -/

/-- the n bytes at kernel address r are memory the machine has -/
def InMemory (s : St) (r n : Word) : Prop :=
  0xF0000000 ≤ r.toNat ∧ r.toNat - 0xF0000000 + n.toNat ≤ s.npages.toNat * 4096

/-- every call of the sequence returns memory the machine has, and panics if there is not enough of it -/
def KeepsToMemory (kend : Word) : List Word → St → Prop
  | [], _ => True
  | n :: ns, s =>
    (∀ r t, (bootAlloc kend n).run s = .ok (r, t) → (n ≠ 0#32 → InMemory s r n) ∧ KeepsToMemory kend ns t) ∧
      (n ≠ 0#32 → ¬ InMemory s (brk s kend) n → ∃ msg, (bootAlloc kend n).run s = .error (.panic msg))

/-- boot_alloc refuses n bytes at the free address e: e is below KERNBASE, or less than n bytes are left below 4MB -/
def Refused (e n : Word) : Prop := e < kernbase ∨ bytesLeft e < n

/-- each request at its free address is 0, refused, or ends within the memory of the machine -/
def EndsInMemory (kend npages : Word) : List Word → Word → Prop
  | [], _ => True
  | n :: ns, e =>
    (n = 0#32 → EndsInMemory kend npages ns e) ∧
      (n ≠ 0#32 → ¬ Refused e n → e.toNat - 0xF0000000 + n.toNat ≤ npages.toNat * 4096 ∧
        EndsInMemory kend npages ns
          (if roundup (e + n) pgsize = 0#32 then roundup kend pgsize else roundup (e + n) pgsize))

section Memory

variable {s : St} {kend n : Word}

theorem run_bootAlloc_look : (bootAlloc kend 0#32).run s = .ok (brk s kend, s.setNextfree (brk s kend)) := by
  by_cases h0 : s.nextfree = 0#32
  · simp [bootAlloc, brk, h0, St.setNextfree]
  · rw [run_bootAlloc_zero h0, brk, if_neg h0, St.setNextfree_self]

theorem run_bootAlloc_refused (hn : n ≠ 0#32) (hr : Refused (brk s kend) n) :
    ∃ msg, (bootAlloc kend n).run s = .error (.panic msg) := by
  have hgen : ∀ t : St, t.nextfree ≠ 0#32 → Refused t.nextfree n →
      ∃ msg, (bootAlloc kend n).run t = .error (.panic msg) := fun t ht hr => by
    by_cases hk : t.nextfree < kernbase
    · exact ⟨"PADDR called with invalid kva %08lx", by simp [bootAlloc, ht, hn, paddr, hk]⟩
    · rw [BitVec.not_lt] at hk
      refine ⟨_, (run_bootAlloc hk hn).trans (if_neg fun hle => ?_)⟩
      rcases hr with hr | hr
      · exact absurd hr (BitVec.not_lt.2 hk)
      · exact absurd hle (BitVec.not_le.2 hr)
  by_cases h0 : s.nextfree = 0#32
  · have hb : brk s kend = roundup kend pgsize := if_pos h0
    rw [hb] at hr
    by_cases hk : roundup kend pgsize = 0#32
    · refine ⟨"PADDR called with invalid kva %08lx", ?_⟩
      have hlt : (0#32 : Word) < kernbase := by decide
      simp [bootAlloc, h0, hk, hn, paddr, hlt]
    · rw [run_bootAlloc_first h0 hk]
      exact hgen (s.setNextfree (roundup kend pgsize)) hk hr
  · have hb : brk s kend = s.nextfree := if_neg h0
    rw [hb] at hr
    exact hgen s h0 hr

theorem run_bootAlloc_served (hn : n ≠ 0#32) (hr : ¬ Refused (brk s kend) n) : (bootAlloc kend n).run s =
    .ok (brk s kend, s.setNextfree (roundup (brk s kend + n) pgsize)) := by
  rw [Refused, not_or, BitVec.not_lt, BitVec.not_lt] at hr
  by_cases h0 : s.nextfree = 0#32
  · have hb : brk s kend = roundup kend pgsize := if_pos h0
    rw [hb] at hr ⊢
    have hk : roundup kend pgsize ≠ 0#32 := fun e => by rw [e] at hr; exact absurd hr.1 (by decide)
    have hserve : (bootAlloc kend n).run (s.setNextfree (roundup kend pgsize)) = _ := run_bootAlloc hr.1 hn
    rw [run_bootAlloc_first h0 hk, hserve, St.setNextfree_nextfree, if_pos hr.2, St.setNextfree_setNextfree]
  · have hb : brk s kend = s.nextfree := if_neg h0
    rw [hb] at hr ⊢
    rw [run_bootAlloc hr.1 hn, if_pos hr.2]

theorem brk_look : brk (s.setNextfree (brk s kend)) kend = brk s kend := by
  unfold brk
  split_ifs with h1 h2 h3
  · rfl
  · rfl
  · exact absurd h3 h1
  · rfl

/-- the calls keep to the memory of the machine exactly if each request that is served ends in it -/
theorem keepsToMemory_iff (kend : Word) (ns : List Word) (s : St) :
    KeepsToMemory kend ns s ↔ EndsInMemory kend s.npages ns (brk s kend) := by
  induction ns generalizing s with
  | nil => exact Iff.rfl
  | cons n ns ih =>
    rw [KeepsToMemory, EndsInMemory]
    by_cases hn : n = 0#32
    · subst hn
      have h := ih (s.setNextfree (brk s kend))
      rw [brk_look, St.setNextfree_npages] at h
      rw [run_bootAlloc_look, ← h]
      constructor
      · exact fun hk => ⟨fun _ => (hk.1 _ _ rfl).2, fun h0 => absurd rfl h0⟩
      · refine fun hk => ⟨fun r t hrt => ⟨fun h0 => absurd rfl h0, ?_⟩, fun h0 => absurd rfl h0⟩
        obtain ⟨rfl, rfl⟩ := Prod.ext_iff.1 (Except.ok.inj hrt)
        exact hk.1 rfl
    · by_cases hr : Refused (brk s kend) n
      · obtain ⟨msg, hmsg⟩ := run_bootAlloc_refused hn hr
        rw [hmsg]
        refine ⟨fun _ => ⟨fun h0 => absurd h0 hn, fun _ h0 => absurd hr h0⟩, fun _ => ⟨fun r t hrt => ?_, fun _ _ => ⟨msg, rfl⟩⟩⟩
        cases hrt
      · have hserve := run_bootAlloc_served hn hr
        have hge : 0xF0000000 ≤ (brk s kend).toNat := by
          rw [Refused, not_or, BitVec.not_lt, BitVec.le_def] at hr
          exact hr.1
        have h := ih (s.setNextfree (roundup (brk s kend + n) pgsize))
        have hb : brk (s.setNextfree (roundup (brk s kend + n) pgsize)) kend =
            if roundup (brk s kend + n) pgsize = 0#32 then roundup kend pgsize else roundup (brk s kend + n) pgsize := rfl
        rw [hb, St.setNextfree_npages] at h
        rw [hserve, ← h]
        constructor
        · refine fun hk => ⟨fun h0 => absurd h0 hn, fun _ _ => ?_⟩
          obtain ⟨hin, hrest⟩ := hk.1 _ _ rfl
          exact ⟨(hin hn).2, hrest⟩
        · intro hk
          obtain ⟨hin, hrest⟩ := hk.2 hn hr
          refine ⟨fun r t hrt => ?_, fun _ hout => absurd ⟨hge, hin⟩ hout⟩
          obtain ⟨rfl, rfl⟩ := Prod.ext_iff.1 (Except.ok.inj hrt)
          exact ⟨fun _ => ⟨hge, hin⟩, hrest⟩

theorem Mapped4M.refused_iff {e : Word} (h : Mapped4M e) : Refused e n ↔ 0xF0400000 < e.toNat + n.toNat := by
  have hle := h.le_bytesLeft (n := n)
  have hk := h.kernbase_le
  rw [Refused, or_iff_right (BitVec.not_lt.2 hk), ← BitVec.not_le, hle]
  omega

/-- with 4MB of memory a request that ends below 4MB ends in memory -/
theorem endsInMemory_of_4M {npages e : Word} (hp : 1024 ≤ npages.toNat) (h : Mapped4M e) (ns : List Word) :
    EndsInMemory kend npages ns e := by
  induction ns generalizing e with
  | nil => trivial
  | cons n ns ih =>
    refine ⟨fun _ => ih h, fun _ hr => ?_⟩
    have hsum := mt h.refused_iff.2 hr
    have hge := h.ge
    have hnext := (h.next ((h.le_bytesLeft (n := n)).2 (by omega))).1
    rw [if_neg hnext.ne_zero]
    exact ⟨by omega, ih hnext⟩

end Memory

/-- **boot_alloc and the detected memory.** The calls of a sequence keep to the memory of the machine exactly if each
request, at its free address, is 0, is refused, or ends in it; and for a kernel that ends in memory and below 4MB, all
sequences of calls do exactly if the machine has 4MB. -/
theorem boot_alloc_in_memory (s : St) (kend : Word) :
    (∀ ns : List Word, KeepsToMemory kend ns s ↔ EndsInMemory kend s.npages ns (brk s kend)) ∧
    (s.nextfree = 0#32 → kernbase ≤ roundup kend pgsize → roundup kend pgsize ≤ kernbase + 0x400000#32 →
      kend.toNat - 0xF0000000 < s.npages.toNat * 4096 →
        ((∀ ns, KeepsToMemory kend ns s) ↔ 1024 ≤ s.npages.toNat)) := by
  refine ⟨fun ns => keepsToMemory_iff kend ns s, fun h0 hge hle hend => ?_⟩
  obtain ⟨hm, hround⟩ := Mapped4M.of_end hge hle
  have hb : brk s kend = roundup kend pgsize := if_pos h0
  constructor
  · -- one request for all that is left below 4MB
    intro hk
    by_contra hp
    have hkge := hm.ge
    have hkle : alignUp 4096 kend.toNat ≤ 0xF0000000 + s.npages.toNat * 4096 :=
      alignUp_le (by decide) _ (by omega) (by omega)
    have h := (keepsToMemory_iff kend [bytesLeft (roundup kend pgsize)] s).1 (hk _)
    rw [hb] at h
    have hleft := bytesLeft_toNat hm.ge hm.le
    have hn : bytesLeft (roundup kend pgsize) ≠ 0#32 := fun e => by
      rw [e] at hleft
      change 0 = _ at hleft
      omega
    have hr : ¬ Refused (roundup kend pgsize) (bytesLeft (roundup kend pgsize)) := by
      rw [hm.refused_iff, hleft]
      omega
    have hin := (h.2 hn hr).1
    omega
  · intro hp ns
    rw [keepsToMemory_iff, hb]
    exact endsInMemory_of_4M hp hm ns

theorem boot_alloc_in_memory_cold : ∀ ns, KeepsToMemory 0xF0117123#32 ns (coldSt.setNpages 1024#32 160#32) :=
  ((boot_alloc_in_memory (coldSt.setNpages 1024#32 160#32) 0xF0117123#32).2 rfl (by decide) (by decide) (by decide)).2
    (by decide)

/-- NVRAM of a machine with 640KB of base memory and 96KB of extended memory -/
def cmos96 : ℕ → BitVec 8 := fun r => if r = 21 then 0x80 else if r = 22 then 2 else if r = 23 then 0x60 else 0

/-- the kernel ends in the last of 280 pages, and the page for kern_pgdir is the one behind it -/
theorem boot_alloc_beyond_memory : ∃ s t, (i386DetectMemory cmos96).run coldSt = .ok ((), s) ∧
    (0xF0117123#32 : Word).toNat - 0xF0000000 < s.npages.toNat * 4096 ∧
    (bootAlloc 0xF0117123#32 pgsize).run s = .ok (0xF0118000#32, t) ∧ ¬ InMemory s 0xF0118000#32 pgsize ∧
    ¬ KeepsToMemory 0xF0117123#32 [pgsize] s := by
  have hs : (i386DetectMemory cmos96).run coldSt = .ok ((), coldSt.setNpages 280#32 160#32) := (rfl)
  have hrun : (bootAlloc 0xF0117123#32 pgsize).run (coldSt.setNpages 280#32 160#32) =
      .ok (0xF0118000#32, (coldSt.setNpages 280#32 160#32).setNextfree 0xF0119000#32) := by
    rw [run_bootAlloc_brk ⟨by decide, by decide, by decide⟩, if_pos (by decide)]
    rfl
  have hout : ¬ InMemory (coldSt.setNpages 280#32 160#32) 0xF0118000#32 pgsize := fun h => absurd h.2 (by decide)
  refine ⟨_, _, hs, by decide, hrun, hout, fun hk => hout ?_⟩
  exact (hk.1 _ _ hrun).1 (by decide)

end Jos
