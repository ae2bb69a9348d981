/-
Singly linked lists threaded through a link function `next : α → Option α`, with `none` as the end of the list.

`Seg next h l t`: following `next` from `h` visits exactly the nodes of `l`, in this order, and then stands at `t`.
`Chain next h l` is a segment that ends in `none`. Results:
- `Seg.congr`: a segment depends only on the links of its own nodes;
- `seg_append`: segments compose;
- `Chain.nodup`: a chain has no repeated node (a node seen twice would lead round in a circle);
- `Chain.unique`: a head and a link function determine the chain;
- `Chain.push`, `Chain.pop`: the operations at the head;
- `Seg.extend`: the operation at the tail.
-/
import Mathlib.Tactic

namespace Jos.Lib

variable {α : Type*}

/-- the nodes of `l` are linked from `h` up to `t` -/
def Seg (next : α → Option α) : Option α → List α → Option α → Prop
  | h, [], t => h = t
  | h, x :: l, t => h = some x ∧ Seg next (next x) l t

/-- the linked list that starts at `h` has exactly the nodes of `l` -/
def Chain (next : α → Option α) (h : Option α) (l : List α) : Prop := Seg next h l none

theorem seg_append (next : α → Option α) (h t : Option α) (l m : List α) :
    Seg next h (l ++ m) t ↔ ∃ u, Seg next h l u ∧ Seg next u m t := by
  induction l generalizing h with
  | nil => simp [Seg]
  | cons x l ih => simp [Seg, ih, and_assoc]

theorem Seg.congr {next next' : α → Option α} {h t : Option α} {l : List α} (hl : Seg next h l t)
    (hn : ∀ x ∈ l, next' x = next x) : Seg next' h l t := by
  induction l generalizing h with
  | nil => exact hl
  | cons x l ih =>
    refine ⟨hl.1, ?_⟩
    rw [hn x List.mem_cons_self]
    exact ih hl.2 fun y hy => hn y (List.mem_cons_of_mem x hy)

theorem Seg.snoc {next : α → Option α} {h : Option α} {l : List α} {x : α} (hl : Seg next h l (some x)) :
    Seg next h (l ++ [x]) (next x) :=
  (seg_append ..).2 ⟨some x, hl, rfl, rfl⟩

theorem chain_nil {next : α → Option α} {h : Option α} : Chain next h [] ↔ h = none := Iff.rfl

theorem chain_none {next : α → Option α} {l : List α} (hl : Chain next none l) : l = [] := by
  cases l with
  | nil => rfl
  | cons x l => exact absurd hl.1 (by simp)

theorem Chain.congr {next next' : α → Option α} {h : Option α} {l : List α} (hl : Chain next h l)
    (hn : ∀ x ∈ l, next' x = next x) : Chain next' h l := Seg.congr hl hn

theorem Chain.unique {next : α → Option α} {h : Option α} {l l' : List α} (hl : Chain next h l)
    (hl' : Chain next h l') : l = l' := by
  induction l generalizing h l' with
  | nil => cases hl; exact (chain_none hl').symm
  | cons x l ih =>
    obtain ⟨rfl, hl⟩ := hl
    cases l' with
    | nil => exact absurd hl' (by simp [Chain, Seg])
    | cons y l' =>
      obtain ⟨hxy, hl'⟩ := hl'
      obtain rfl : x = y := Option.some.inj hxy
      rw [ih hl hl']

/-- A chain visits no node twice: the rest of the list after the two visits would be the same list. -/
theorem Chain.nodup {next : α → Option α} {h : Option α} {l : List α} (hl : Chain next h l) : l.Nodup := by
  induction l generalizing h with
  | nil => exact List.nodup_nil
  | cons x l ih =>
    refine List.nodup_cons.2 ⟨fun hx => ?_, ih hl.2⟩
    obtain ⟨a, b, rfl⟩ := List.append_of_mem hx
    obtain ⟨u, -, hu⟩ := (seg_append ..).1 hl.2
    obtain ⟨rfl, hb⟩ := hu
    have h1 : Chain next (some x) (x :: b) := ⟨rfl, hb⟩
    have h2 : Chain next (some x) (x :: (a ++ x :: b)) := ⟨rfl, hl.2⟩
    have := congrArg List.length (h1.unique h2)
    simp at this
    omega

theorem Chain.head {next : α → Option α} {x : α} {l : List α} (hl : Chain next (some x) l) :
    ∃ m, l = x :: m ∧ Chain next (next x) m := by
  cases l with
  | nil => exact absurd hl (by simp [Chain, Seg])
  | cons y m =>
    obtain ⟨hxy, hm⟩ := hl
    obtain rfl : x = y := Option.some.inj hxy
    exact ⟨m, rfl, hm⟩

variable [DecidableEq α]

/-- the segments of nodes other than `x` do not see a write to the link of `x` -/
theorem Seg.update {next : α → Option α} {h t v : Option α} {l : List α} {x : α} (hl : Seg next h l t)
    (hx : x ∉ l) : Seg (Function.update next x v) h l t :=
  hl.congr fun _ hy => Function.update_of_ne (ne_of_mem_of_not_mem hy hx) _ _

/-- the last node of a segment is linked to v, which ends the segment behind it -/
theorem Seg.extend {next : α → Option α} {h : Option α} {l : List α} {x : α} (hl : Seg next h l (some x)) (hx : x ∉ l)
    (v : Option α) : Seg (Function.update next x v) h (l ++ [x]) v := by
  have hs := (hl.update (v := v) hx).snoc
  rwa [Function.update_self] at hs

theorem Chain.push {next : α → Option α} {h : Option α} {l : List α} {x : α} (hl : Chain next h l) (hx : x ∉ l) :
    Chain (Function.update next x h) (some x) (x :: l) := by
  refine ⟨rfl, ?_⟩
  rw [Function.update_self]
  exact hl.update hx

theorem Chain.pop {next : α → Option α} {h : Option α} {l : List α} {x : α} (hl : Chain next h (x :: l))
    (v : Option α) : Chain (Function.update next x v) (next x) l :=
  hl.2.update (List.nodup_cons.1 hl.nodup).1

end Jos.Lib
