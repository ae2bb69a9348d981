/-
A cache of a translation that changes under it.

A store in state s translates key a to `look s a`. Events change the state (`act`), and some of them throw keys out of
the cache (`flush`). Between any two events the cache may load the current translation of any key: `Exec s C es s' C'`
says that the store goes from s to s' by the events es while the cache goes from C to C' by these loads and flushes.

`stale K s es` is the set of keys whose cached translation may be wrong after es, if it may be wrong for the keys of K
before. Results:
- `exec_stale`: it is never wrong for any other key, in any interleaving;
- `Fresh.exec`: events that leave no stale key keep the cache coherent;
- `exec_keeps`: an entry that no event flushes may stay;
- `Fresh.nil`, `Fresh.append`, `Fresh.grow`, `Fresh.inert`, `Fresh.drop`: how to show that. The last one is a shootdown:
  an event that changes the translation of one key, and the flush of this key behind it.
-/
import Mathlib.Tactic

namespace Jos.Lib

structure Cached (σ ε α β : Type*) where
  look : σ → α → Option β
  act : ε → σ → σ
  flush : ε → Set α

namespace Cached

variable {σ ε α β : Type*} (M : Cached σ ε α β)

/-- the state after the events -/
def acts (es : List ε) (s : σ) : σ := es.foldl (fun s e => M.act e s) s

/-- every cached translation is the current one -/
def Coherent (s : σ) (C : Set (α × β)) : Prop := ∀ a b, (a, b) ∈ C → M.look s a = some b

/-- the same, except for the keys of K -/
def CoherentOff (K : Set α) (s : σ) (C : Set (α × β)) : Prop := ∀ a b, (a, b) ∈ C → a ∈ K ∨ M.look s a = some b

inductive Exec : σ → Set (α × β) → List ε → σ → Set (α × β) → Prop where
  | nil (s : σ) (C : Set (α × β)) : Exec s C [] s C
  /-- the cache loads the translation of a -/
  | load {s s' : σ} {C C' : Set (α × β)} {es : List ε} {a : α} {b : β} (h : M.look s a = some b)
    (hx : Exec s (insert (a, b) C) es s' C') : Exec s C es s' C'
  | event {s s' : σ} {C C' : Set (α × β)} {es : List ε} {e : ε}
    (hx : Exec (M.act e s) {x ∈ C | x.1 ∉ M.flush e} es s' C') : Exec s C (e :: es) s' C'

theorem Exec.final {s s' : σ} {C C' : Set (α × β)} {es : List ε} (h : M.Exec s C es s' C') : s' = M.acts es s := by
  induction h with
  | nil s C => rfl
  | load _ _ ih => exact ih
  | event _ ih => exact ih

/-- there is always an execution: the one that loads nothing -/
theorem exec_exists (s : σ) (C : Set (α × β)) (es : List ε) : ∃ s' C', M.Exec s C es s' C' := by
  induction es generalizing s C with
  | nil => exact ⟨s, C, .nil s C⟩
  | cons e es ih =>
    obtain ⟨s', C', h⟩ := ih (M.act e s) {x ∈ C | x.1 ∉ M.flush e}
    exact ⟨s', C', .event h⟩

/-- and it keeps an entry that is not flushed -/
theorem exec_keeps (s : σ) {C : Set (α × β)} {es : List ε} {x : α × β} (hx : x ∈ C) (hf : ∀ e ∈ es, x.1 ∉ M.flush e) :
    ∃ s' C', M.Exec s C es s' C' ∧ x ∈ C' := by
  induction es generalizing s C with
  | nil => exact ⟨s, C, .nil s C, hx⟩
  | cons e es ih =>
    have hkept : x ∈ {x ∈ C | x.1 ∉ M.flush e} := ⟨hx, hf e List.mem_cons_self⟩
    obtain ⟨s', C', h, hx'⟩ := ih (M.act e s) hkept fun e' he => hf e' (List.mem_cons_of_mem _ he)
    exact ⟨s', C', .event h, hx'⟩

/-- the keys that may be stale after event e -/
def staleStep (K : Set α) (s : σ) (e : ε) : Set α :=
  {a | a ∉ M.flush e ∧ (a ∈ K ∨ ∃ b, M.look s a = some b ∧ M.look (M.act e s) a ≠ some b)}

def stale (K : Set α) (s : σ) : List ε → Set α
  | [] => K
  | e :: es => stale (M.staleStep K s e) (M.act e s) es

variable {M}

theorem exec_stale {K : Set α} {s s' : σ} {C C' : Set (α × β)} {es : List ε} (hx : M.Exec s C es s' C')
    (hc : M.CoherentOff K s C) : M.CoherentOff (M.stale K s es) s' C' := by
  induction hx generalizing K with
  | nil s C => exact hc
  | load hl _ ih =>
    refine ih ?_
    intro a b hab
    rcases Set.mem_insert_iff.1 hab with he | hab
    · cases he
      exact Or.inr hl
    · exact hc a b hab
  | @event s s' C C' es e _ ih =>
    refine ih ?_
    intro a b hab
    obtain ⟨hab, hf⟩ := hab
    by_cases hl : M.look (M.act e s) a = some b
    · exact Or.inr hl
    · refine Or.inl ⟨hf, ?_⟩
      rcases hc a b hab with hk | hk
      · exact Or.inl hk
      · exact Or.inr ⟨b, hk, hl⟩

theorem stale_append (K : Set α) (s : σ) (es fs : List ε) :
    M.stale K s (es ++ fs) = M.stale (M.stale K s es) (M.acts es s) fs := by
  induction es generalizing K s with
  | nil => rfl
  | cons e es ih => exact ih _ _

variable (M)

/-- the events leave no stale key behind -/
def Fresh (s : σ) (es : List ε) : Prop := M.stale ∅ s es = ∅

variable {M}

/-- **Fresh events keep the cache coherent**, whatever is loaded between them. -/
theorem Fresh.exec {s s' : σ} {C C' : Set (α × β)} {es : List ε} (hf : M.Fresh s es) (hx : M.Exec s C es s' C')
    (hc : M.Coherent s C) : M.Coherent s' C' := by
  intro a b hab
  rcases exec_stale (K := ∅) hx (fun a b h => Or.inr (hc a b h)) a b hab with h | h
  · rw [hf] at h
    exact h.elim
  · exact h

theorem Fresh.nil (s : σ) : M.Fresh s [] := rfl

theorem Fresh.append {s : σ} {es fs : List ε} (h1 : M.Fresh s es) (h2 : M.Fresh (M.acts es s) fs) :
    M.Fresh s (es ++ fs) := by
  unfold Fresh at *
  rw [stale_append, h1, h2]

theorem Fresh.cons {s : σ} {e : ε} {es : List ε} (h1 : M.Fresh s [e]) (h2 : M.Fresh (M.act e s) es) :
    M.Fresh s (e :: es) := Fresh.append h1 h2

/-- no key that is translated loses or changes its translation -/
theorem Fresh.grow {s : σ} {e : ε} (h : ∀ a b, M.look s a = some b → M.look (M.act e s) a = some b) : M.Fresh s [e] := by
  refine Set.eq_empty_of_forall_notMem ?_
  intro a ha
  obtain ⟨-, hk | ⟨b, h1, h2⟩⟩ := ha
  · exact hk
  · exact h2 (h a b h1)

/-- events that change no translation, as long as I holds -/
theorem Fresh.inert {I : σ → Prop} {s : σ} {es : List ε} (hs : I s)
    (h : ∀ s, I s → ∀ e ∈ es, I (M.act e s) ∧ ∀ a, M.look (M.act e s) a = M.look s a) : M.Fresh s es := by
  induction es generalizing s with
  | nil => exact Fresh.nil s
  | cons e es ih =>
    obtain ⟨hi, he⟩ := h s hs e List.mem_cons_self
    exact Fresh.cons (Fresh.grow fun a b hb => (he a).trans hb)
      (ih hi fun s hs e he => h s hs e (List.mem_cons_of_mem _ he))

/-- only the translation of a changes, and a is flushed next -/
theorem Fresh.drop {s : σ} {e e' : ε} {a : α} (h : ∀ a', a' ≠ a → M.look (M.act e s) a' = M.look s a')
    (hf : a ∈ M.flush e') (hn : M.act e' (M.act e s) = M.act e s) : M.Fresh s [e, e'] := by
  refine Set.eq_empty_of_forall_notMem ?_
  intro a' ha
  obtain ⟨hne, ⟨-, hk | ⟨b, h1, h2⟩⟩ | ⟨b, h1, h2⟩⟩ := ha
  · exact hk
  · have : a' ≠ a := fun e => hne (e ▸ hf)
    exact h2 ((h a' this).trans h1)
  · rw [hn] at h2
    exact h2 h1

end Cached

end Jos.Lib
