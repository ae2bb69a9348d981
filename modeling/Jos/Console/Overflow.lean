/-
Overflow of the console buffer.

cons_intr does not look at rpos: a burst that brings wpos round to rpos makes the full buffer look empty. What survives of
u unread characters is u modulo 512. Results:
- `silent_run`: with silent devices, cons_getc returns the backlog and then 0 for ever;
- `keepsBacklog_iff`: the backlog holds at least min(u, 511) characters exactly if u is below 512 or 511 modulo 512;
- `burst_backlog`: this in every state that a run from boot reaches;
- `burst_lost`: 512 characters in one burst, and cons_getc returns 0.
-/
import Jos.Console.Input

namespace Jos

open Jos.Lib

/-- with nothing more delivered, cons_getc returns at least min(u, CONSBUFSIZE-1) of the u unread characters, the most
recent or the oldest, before it returns 0 -/
def KeepsBacklog (t : ConsSt) : Prop :=
  ∃ cs u, runAll consStep (List.replicate (cs.length + 1) (.getc silence)) t = .ok u ∧
    u.results = t.results ++ (cs ++ [0#32]) ∧ (∀ c ∈ cs, c ≠ 0#32) ∧ min (unread t) (consbufsize - 1) ≤ cs.length ∧
      (cs <:+ t.delivered ∨ cs <+: t.delivered.drop (returned t).length)

section Silence

variable {s : ConsSt}

/-- the polls of cons_getc when the devices have no data -/
theorem silent_polls (s : ConsSt) :
    ∃ rest, (ConsOp.getc silence).polls.run s = .ok ((), { s with ins := rest }) := by
  have hserial : ∀ (a : ConsSt) (fuel : ℕ) (bs : List (BitVec 8)), a.ins = 0#8 :: bs →
      (consIntr serialProcData (fuel + 1)).run a = .ok ((), { a with ins := bs }) := by
    rintro ⟨e, sh, c, ins, o, d, r⟩ fuel bs rfl
    rfl
  have hkbd : ∀ (a : ConsSt) (fuel : ℕ) (bs : List (BitVec 8)), a.ins = 0#8 :: bs →
      (consIntr kbdProcData (fuel + 1)).run a = .ok ((), { a with ins := bs }) := by
    rintro ⟨e, sh, c, ins, o, d, r⟩ fuel bs rfl
    rfl
  have hset : (setIns silence).run s = .ok ((), { s with ins := silence }) := rfl
  by_cases he : s.serialExists
  · refine ⟨[], ?_⟩
    have h1 : serialIntr.run { s with ins := silence } = .ok ((), { s with ins := [0#8] }) := by
      rw [serialIntr, Prog.run_bind (Prog.get_ok.2 rfl), if_pos he, hserial _ _ [0#8] rfl]
    have h2 : kbdIntr.run { s with ins := [0#8] } = .ok ((), { s with ins := [] }) := by
      rw [kbdIntr, Prog.run_bind (Prog.get_ok.2 rfl), hkbd _ _ [] rfl]
    rw [ConsOp.polls, Prog.run_bind hset, Prog.run_bind h1, h2]
  · refine ⟨[0#8], ?_⟩
    have h1 : serialIntr.run { s with ins := silence } = .ok ((), { s with ins := silence }) := by
      rw [serialIntr, Prog.run_bind (Prog.get_ok.2 rfl), if_neg he]
      rfl
    have h2 : kbdIntr.run { s with ins := silence } = .ok ((), { s with ins := [0#8] }) := by
      rw [kbdIntr, Prog.run_bind (Prog.get_ok.2 rfl), hkbd _ _ [0#8] rfl]
    rw [ConsOp.polls, Prog.run_bind hset, Prog.run_bind h1, h2]

/-- one cons_getc with silent devices -/
theorem silent_getc (hi : ConsInv s) :
    (backlog s = [] ∧ ∃ t, consStep (.getc silence) s = .ok t ∧ t.results = s.results ++ [0#32] ∧ ConsInv t ∧
      backlog t = []) ∨
    ∃ c rest t, backlog s = c :: rest ∧ consStep (.getc silence) s = .ok t ∧ t.results = s.results ++ [c] ∧ ConsInv t ∧
      backlog t = rest := by
  obtain ⟨ins, hp⟩ := silent_polls s
  have hi' : ConsInv { s with ins := ins } := ⟨hi.ring, hi.bytes⟩
  rcases takes_getc silence hi' with ⟨hnil, hrun⟩ | ⟨c, rest, hcons, h0, hrun, hit, hrest⟩
  · refine Or.inl ⟨hnil, _, consStep_ok.2 ⟨_, hp, hrun⟩, rfl, hi'.noted, ?_⟩
    have hret : returned { { s with ins := ins } with results := s.results ++ [0#32] } = returned s := by
      simp [returned]
    rw [backlog, hret]
    exact hnil
  · exact Or.inr ⟨c, rest, _, hcons, consStep_ok.2 ⟨_, hp, hrun⟩, rfl, hit, hrest⟩

/-- n calls of cons_getc with silent devices return the backlog, and 0 when it is used up -/
theorem silent_run (n : ℕ) (hi : ConsInv s) : ∃ t, runAll consStep (List.replicate n (.getc silence)) s = .ok t ∧
    t.results = s.results ++ ((backlog s).take n ++ List.replicate (n - (backlog s).length) 0#32) := by
  induction n generalizing s with
  | zero => exact ⟨s, rfl, by simp⟩
  | succ n ih =>
    rw [List.replicate_succ]
    rcases silent_getc hi with ⟨hnil, a, ha, hres, hia, hback⟩ | ⟨c, rest, a, hcons, ha, hres, hia, hback⟩
    · obtain ⟨t, ht, htr⟩ := ih hia
      refine ⟨t, by rw [runAll_cons ha, ht], ?_⟩
      rw [htr, hres, hback, hnil]
      simp [List.replicate_succ]
    · obtain ⟨t, ht, htr⟩ := ih hia
      refine ⟨t, by rw [runAll_cons ha, ht], ?_⟩
      rw [htr, hres, hback, hcons]
      simp

/-- the u unread characters survive but for less than a buffer exactly if u is below 512 or 511 modulo 512 -/
theorem keepsBacklog_iff (hi : ConsInv s) : KeepsBacklog s ↔ unread s < 512 ∨ unread s % 512 = 511 := by
  have hlen : (backlog s).length = unread s % 512 := length_pending
  have hlt := Nat.mod_lt (unread s) (show 0 < 512 by decide)
  constructor
  · rintro ⟨cs, u, hu, hres, h0, hmin, -⟩
    obtain ⟨t, ht, htr⟩ := silent_run (cs.length + 1) hi
    obtain rfl : u = t := Except.ok.inj (hu.symm.trans ht)
    rw [hres] at htr
    -- a result behind the backlog would be 0
    have hle : cs.length ≤ (backlog s).length := by
      by_contra hc
      have hsplit : cs.length + 1 - (backlog s).length = (cs.length - (backlog s).length - 1) + 1 + 1 := by omega
      have heq := List.append_cancel_left htr
      rw [hsplit, List.replicate_succ', ← List.append_assoc] at heq
      have hcs := (List.append_inj' heq rfl).1
      refine h0 0#32 ?_ rfl
      rw [hcs, List.replicate_succ]
      simp
    simp only [consbufsize] at hmin
    omega
  · intro hu
    obtain ⟨t, ht, htr⟩ := silent_run ((backlog s).length + 1) hi
    refine ⟨backlog s, t, ht, ?_, fun c hc => (hi.bytes c (pending_suffix.subset hc)).1, ?_, Or.inl pending_suffix⟩
    · rw [htr, List.take_of_length_le (Nat.le_succ _), Nat.add_sub_cancel_left]
      rfl
    · simp only [consbufsize]
      omega

end Silence

/-- **Overflow.** In every state that a run from boot reaches, the backlog of unread characters is kept but for the excess
over 511 exactly if there are fewer than 512, or 511 modulo 512, of them. -/
theorem burst_backlog (s t : ConsSt) (os : List ConsOp) (hs : ConsStart s) (hrun : runAll consStep os s = .ok t) :
    KeepsBacklog t ↔ unread t < 512 ∨ unread t % 512 = 511 := by
  have hlegal : LegalRun consStep (fun _ _ => True) s os := legalRun_of_forall (fun _ _ => trivial) s os
  exact keepsBacklog_iff (runAll_keeps (fun _ _ _ hi _ h => consStep_inv hi h) s t os hs.inv hlegal hrun)

theorem burst_backlog_typed : ∃ t, runAll consStep [.serialIntr [1#8, 0x6C#8, 0#8]] consBoot = .ok t ∧ KeepsBacklog t := by
  have hobs : (runAll consStep [.serialIntr [1#8, 0x6C#8, 0#8]] consBoot).map unread = .ok 1 := by decide +kernel
  cases ht : runAll consStep [.serialIntr [1#8, 0x6C#8, 0#8]] consBoot with
  | error e => rw [ht] at hobs; cases hobs
  | ok t =>
    rw [ht] at hobs
    have h1 : unread t = 1 := Except.ok.inj hobs
    exact ⟨t, rfl, (burst_backlog consBoot t _ consBoot_start ht).2 (Or.inl (by omega))⟩

/-- n times the letter a at the serial port -/
def letters (n : ℕ) : List (BitVec 8) := (List.replicate n [1#8, 0x61#8]).flatten ++ [0#8]

theorem letters_length (n : ℕ) : (letters n).length = 2 * n + 1 := by
  simp [letters, Nat.mul_comm]

/-- a burst of n letters is delivered as a whole -/
theorem burst_delivered (n fuel : ℕ) (s : ConsSt) (hf : n < fuel) (hs : s.ins = letters n) :
    ∃ t, (consIntr serialProcData fuel).run s = .ok ((), t) ∧ t.delivered = s.delivered ++ List.replicate n 0x61#32 ∧
      t.results = s.results := by
  induction n generalizing s fuel with
  | zero =>
    obtain ⟨fuel, rfl⟩ : ∃ k, fuel = k + 1 := ⟨fuel - 1, by omega⟩
    obtain ⟨e, sh, c, ins, o, d, r⟩ := s
    obtain rfl : ins = [0#8] := hs
    exact ⟨_, rfl, by simp, rfl⟩
  | succ n ih =>
    obtain ⟨fuel, rfl⟩ : ∃ k, fuel = k + 1 := ⟨fuel - 1, by omega⟩
    obtain ⟨e, sh, c, ins, o, d, r⟩ := s
    obtain rfl : ins = 1#8 :: 0x61#8 :: letters n := by
      rw [show ins = letters (n + 1) from hs, letters, letters, List.replicate_succ]
      rfl
    have hproc : serialProcData.run ⟨e, sh, c, 1#8 :: 0x61#8 :: letters n, o, d, r⟩ =
        .ok (0x61#32, ⟨e, sh, c, letters n, o, d, r⟩) := rfl
    have hput : (consPut 0x61#32).run ⟨e, sh, c, letters n, o, d, r⟩ =
        .ok ((), ⟨e, sh, { c with buf := Function.update c.buf c.wpos.toNat 0x61#8, wpos := nextPos c.wpos }, letters n, o,
          d ++ [0x61#32], r⟩) := rfl
    obtain ⟨t, ht, hdel, hres⟩ := ih fuel _ (by omega) (show ConsSt.ins ⟨e, sh, { c with
      buf := Function.update c.buf c.wpos.toNat 0x61#8, wpos := nextPos c.wpos }, letters n, o, d ++ [0x61#32], r⟩ =
        letters n from rfl)
    refine ⟨t, ?_, ?_, hres⟩
    · rw [consIntr, Prog.run_bind hproc, if_neg (by decide), if_neg (by decide), Prog.run_bind hput]
      exact ht
    · rw [hdel, List.replicate_succ, List.append_assoc, List.singleton_append]

theorem burst_step (n : ℕ) (s : ConsSt) (he : s.serialExists = true) :
    ∃ t, consStep (.serialIntr (letters n)) s = .ok t ∧ t.delivered = s.delivered ++ List.replicate n 0x61#32 ∧
      t.results = s.results := by
  obtain ⟨t, ht, hdel, hres⟩ := burst_delivered n ((letters n).length + 1) { s with ins := letters n } (by
    rw [letters_length]; omega) rfl
  refine ⟨t, consStep_ok.2 ⟨t, ?_, rfl⟩, hdel, hres⟩
  have hset : (setIns (letters n)).run s = .ok ((), { s with ins := letters n }) := rfl
  rw [ConsOp.polls, Prog.run_bind hset, serialIntr, Prog.run_bind (Prog.get_ok.2 rfl), if_pos he]
  exact ht

/-- a burst of 512 letters erases itself: cons_getc then returns 0 -/
theorem burst_lost : ∃ t u, runAll consStep [.serialIntr (letters 512)] consBoot = .ok t ∧ unread t = 512 ∧
    consStep (.getc silence) t = .ok u ∧ u.results = [0#32] ∧ ¬ KeepsBacklog t := by
  obtain ⟨t, hstep, hdel, hres⟩ := burst_step 512 consBoot rfl
  have hi := consStep_inv consBoot_start.inv hstep
  have hres' : t.results = [] := hres
  have hun : unread t = 512 := by
    rw [unread, hdel, returned, hres', List.length_append, List.length_replicate]
    rfl
  have hempty : backlog t = [] := List.length_eq_zero_iff.1 (length_pending.trans (by
    rw [show t.delivered.length - (returned t).length = 512 from hun]))
  rcases silent_getc hi with ⟨-, u, hu, hur, -⟩ | ⟨c, rest, u, hcons, -⟩
  · refine ⟨t, u, by rw [runAll_cons hstep]; rfl, hun, hu, by rw [hur, hres']; rfl, fun hk => ?_⟩
    have := (keepsBacklog_iff hi).1 hk
    omega
  · rw [hempty] at hcons
    cases hcons

end Jos
