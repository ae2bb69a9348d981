/-
A pool of reference-counted objects named by finitely many slots.

`S` is the finite set of slots; `slot σ` is the object slot σ names, if any. Each object carries a counter `ref`, and
the objects nobody holds sit on the list `free`. `pool` is the set of objects the list may hold, `own` the set a slot may
name. `extra p` counts the references to p that are held outside the slots: 0 at rest, 1 while an operation holds p
between two of its steps, or a permanent reference that keeps p off the list for good.

The invariant `Inv` says that every counter is exact: `ref p = extra p + uses S slot p`. Each way a reference can move
keeps it:
- `Inv.alloc`, `Inv.release`: an object without references leaves or joins the list;
- `Inv.incref`: the caller takes a reference;
- `Inv.put`: the caller's reference moves into an empty slot;
- `Inv.take`: a slot is emptied, its object loses a reference and joins the list if that was the last one.
-/
import Mathlib.Tactic

namespace Jos.Lib.RefPool

variable {Page Slot : Type*} [DecidableEq Page]

/-- number of slots that name p -/
def uses (S : Finset Slot) (slot : Slot → Option Page) (p : Page) : ℕ := (S.filter fun σ => slot σ = some p).card

structure Inv (S : Finset Slot) (pool own : Page → Prop) (slot : Slot → Option Page) (free : List Page)
    (ref extra : Page → ℕ) : Prop where
  nodup : free.Nodup
  free_pool : ∀ p ∈ free, pool p
  free_ref : ∀ p ∈ free, ref p = 0
  slot_own : ∀ σ ∈ S, ∀ p, slot σ = some p → own p
  ref_eq : ∀ p, ref p = extra p + uses S slot p

/-- the slots of S other than σ are as before -/
def Else (S : Finset Slot) (σ : Slot) (slot slot' : Slot → Option Page) : Prop := ∀ τ ∈ S, τ ≠ σ → slot' τ = slot τ

variable {S : Finset Slot} {pool own : Page → Prop} {slot slot' : Slot → Option Page} {free : List Page}
  {ref ref' extra extra' : Page → ℕ}

theorem uses_congr (h : ∀ σ ∈ S, slot' σ = slot σ) (p : Page) : uses S slot' p = uses S slot p := by
  unfold uses
  congr 1
  exact Finset.filter_congr fun σ hσ => by rw [h σ hσ]

theorem uses_pos_of_mem {σ : Slot} (hσ : σ ∈ S) {p : Page} (h : slot σ = some p) : 0 < uses S slot p :=
  Finset.card_pos.2 ⟨σ, Finset.mem_filter.2 ⟨hσ, h⟩⟩

theorem uses_eq_zero_iff (p : Page) : uses S slot p = 0 ↔ ∀ σ ∈ S, slot σ ≠ some p := by
  simp [uses, Finset.card_eq_zero, Finset.filter_eq_empty_iff]

/-- changing one slot moves the count of an object by what that slot named before and names now -/
theorem uses_change {σ : Slot} (hσ : σ ∈ S) (he : Else S σ slot slot') (p : Page) :
    uses S slot' p + (if slot σ = some p then 1 else 0) = uses S slot p + (if slot' σ = some p then 1 else 0) := by
  classical
  have hrest : ∀ f : Slot → Option Page, uses S f p =
      ((S.erase σ).filter fun τ => f τ = some p).card + (if f σ = some p then 1 else 0) := by
    intro f
    have hS : S = insert σ (S.erase σ) := (Finset.insert_erase hσ).symm
    unfold uses
    conv_lhs => rw [hS, Finset.filter_insert]
    split_ifs
    · rw [Finset.card_insert_of_notMem (by simp)]
    · rfl
  have hsame : ((S.erase σ).filter fun τ => slot' τ = some p) = (S.erase σ).filter fun τ => slot τ = some p :=
    Finset.filter_congr fun τ hτ => by rw [he τ (Finset.mem_of_mem_erase hτ) (Finset.ne_of_mem_erase hτ)]
  rw [hrest slot, hrest slot', hsame]
  omega

namespace Inv

theorem free_uses (h : Inv S pool own slot free ref extra) {p : Page} (hp : p ∈ free) : uses S slot p = 0 := by
  have h1 := h.free_ref p hp
  have h2 := h.ref_eq p
  omega

/-- a slot never names an object of the list -/
theorem slot_not_free (h : Inv S pool own slot free ref extra) {σ : Slot} (hσ : σ ∈ S) {p : Page}
    (hs : slot σ = some p) : p ∉ free := fun hp => by
  have := h.free_uses hp
  have := uses_pos_of_mem hσ hs
  omega

theorem congr_slot (h : Inv S pool own slot free ref extra) (hs : ∀ σ ∈ S, slot' σ = slot σ) :
    Inv S pool own slot' free ref extra :=
  { h with
    slot_own := fun σ hσ p hp => h.slot_own σ hσ p (hs σ hσ ▸ hp)
    ref_eq := fun p => by rw [uses_congr hs]; exact h.ref_eq p }

/-- the order of the list does not matter -/
theorem congr_free {free' : List Page} (h : Inv S pool own slot free ref extra) (hn : free'.Nodup)
    (hf : ∀ p, p ∈ free' ↔ p ∈ free) : Inv S pool own slot free' ref extra :=
  { h with
    nodup := hn
    free_pool := fun p hp => h.free_pool p ((hf p).1 hp)
    free_ref := fun p hp => h.free_ref p ((hf p).1 hp) }

theorem alloc {p : Page} (h : Inv S pool own slot (p :: free) ref extra) : Inv S pool own slot free ref extra :=
  { h with
    nodup := (List.nodup_cons.1 h.nodup).2
    free_pool := fun q hq => h.free_pool q (List.mem_cons_of_mem p hq)
    free_ref := fun q hq => h.free_ref q (List.mem_cons_of_mem p hq) }

theorem release (h : Inv S pool own slot free ref extra) {p : Page} (hf : p ∉ free) (hp : pool p) (hr : ref p = 0) :
    Inv S pool own slot (p :: free) ref extra := by
  refine { h with nodup := List.nodup_cons.2 ⟨hf, h.nodup⟩, free_pool := ?_, free_ref := ?_ }
  · intro q hq
    rcases List.mem_cons.1 hq with rfl | hq
    · exact hp
    · exact h.free_pool q hq
  · intro q hq
    rcases List.mem_cons.1 hq with rfl | hq
    · exact hr
    · exact h.free_ref q hq

theorem incref (h : Inv S pool own slot free ref extra) {p : Page} (hf : p ∉ free) (hr : ref' p = ref p + 1)
    (hr' : ∀ q, q ≠ p → ref' q = ref q) :
    Inv S pool own slot free ref' (Function.update extra p (extra p + 1)) := by
  refine { h with free_ref := ?_, ref_eq := ?_ }
  · intro q hq
    rw [hr' q (ne_of_mem_of_not_mem hq hf)]
    exact h.free_ref q hq
  · intro q
    have := h.ref_eq q
    by_cases hqp : q = p
    · subst hqp
      rw [hr, Function.update_self]; omega
    · rw [hr' q hqp, Function.update_of_ne hqp]; exact this

theorem put (h : Inv S pool own slot free ref extra) {σ : Slot} (hσ : σ ∈ S) {p : Page} (hn : slot σ = none)
    (hs : slot' σ = some p) (he : Else S σ slot slot') (hp : own p) (hx : extra p = extra' p + 1)
    (hx' : ∀ q, q ≠ p → extra' q = extra q) : Inv S pool own slot' free ref extra' := by
  refine { h with slot_own := ?_, ref_eq := ?_ }
  · intro τ hτ q hq
    by_cases hτσ : τ = σ
    · subst hτσ
      rw [hs] at hq
      exact Option.some.inj hq ▸ hp
    · exact h.slot_own τ hτ q (he τ hτ hτσ ▸ hq)
  · intro q
    have h1 := uses_change hσ he q
    have h2 := h.ref_eq q
    rw [hn, hs] at h1
    by_cases hqp : q = p
    · subst hqp
      simp at h1; omega
    · rw [hx' q hqp]
      simp [Ne.symm hqp] at h1; omega

theorem take (h : Inv S pool own slot free ref extra) {σ : Slot} (hσ : σ ∈ S) {q : Page} (hs : slot σ = some q)
    (hn : slot' σ = none) (he : Else S σ slot slot') (hq : pool q ∨ 0 < extra q) (hr : ref q = ref' q + 1)
    (hr' : ∀ p, p ≠ q → ref' p = ref p) :
    Inv S pool own slot' (if ref' q = 0 then q :: free else free) ref' extra := by
  have hqf := h.slot_not_free hσ hs
  have hmid : Inv S pool own slot' free ref' extra := by
    refine { h with free_ref := ?_, slot_own := ?_, ref_eq := ?_ }
    · intro p hp
      rw [hr' p (ne_of_mem_of_not_mem hp hqf)]
      exact h.free_ref p hp
    · intro τ hτ p hp
      by_cases hτσ : τ = σ
      · subst hτσ; rw [hn] at hp; exact absurd hp (by simp)
      · exact h.slot_own τ hτ p (he τ hτ hτσ ▸ hp)
    · intro p
      have h1 := uses_change hσ he p
      have h2 := h.ref_eq p
      rw [hn, hs] at h1
      by_cases hpq : p = q
      · subst hpq
        simp at h1; omega
      · rw [hr' p hpq]
        simp [Ne.symm hpq] at h1; omega
  split_ifs with h0
  · refine hmid.release hqf (hq.resolve_right fun hx => ?_) h0
    have := hmid.ref_eq q
    omega
  · exact hmid

end Inv

end Jos.Lib.RefPool
