import MiniMemcached.Lists.Chain

/-! Doubly linked lists in a pointer memory: the cells are met in one order along
`next` from the head, and in the opposite order along `prev` from the tail. A new
cell may be put in front, and a cell between two others may be taken out by
redirecting its two neighbours. A stack has no tail slot; its first cell has no
predecessor. -/

namespace MiniMemcached.Lists

variable {α : Type*}

/-- The list from `head` to `tail`, linked both ways. -/
structure Doubly (next prev : α → Option α) (head tail : Option α) (l : List α) : Prop where
  forward : Chain next head l
  backward : Chain prev tail l.reverse

namespace Doubly

variable {next next' prev prev' : α → Option α} {head tail : Option α} {a : α} {l : List α}

theorem congr (h : Doubly next prev head tail l) (hn : ∀ a ∈ l, next' a = next a)
    (hp : ∀ a ∈ l, prev' a = prev a) : Doubly next' prev' head tail l :=
  ⟨h.forward.congr hn, h.backward.congr fun a ha => hp a (List.mem_reverse.mp ha)⟩

theorem head_eq (h : Doubly next prev head tail l) : head = l.head? := h.forward.start_eq

theorem tail_eq (h : Doubly next prev head tail l) : tail = l.getLast? := by
  rw [h.backward.start_eq, List.head?_reverse]

theorem isSome_eq (h : Doubly next prev head tail l) : head.isSome = tail.isSome := by
  rw [h.head_eq, h.tail_eq]
  cases l <;> simp

theorem mem_of_head (h : Doubly next prev head tail l) (ha : head = some a) : a ∈ l :=
  h.forward.start_mem ha

theorem prev_mem (h : Doubly next prev head tail l) (ha : a ∈ l) {b : α} (hb : prev a = some b) :
    b ∈ l :=
  List.mem_reverse.mp (h.backward.next_mem (List.mem_reverse.mpr ha) hb)

theorem next_tail (h : Doubly next prev head tail l) (ha : tail = some a) : next a = none := by
  obtain ⟨l, rfl⟩ : ∃ l', l = l' ++ [a] := by
    rw [h.tail_eq, List.getLast?_eq_some_iff] at ha
    exact ha
  exact h.forward.drop

theorem prev_head (h : Doubly next prev head tail l) (ha : head = some a) : prev a = none := by
  have hreverse : Doubly prev next tail head l.reverse :=
    ⟨h.backward, (List.reverse_reverse l).symm ▸ h.forward⟩
  exact hreverse.next_tail ha

section Update

variable [DecidableEq α]

/-- A new cell in front. -/
theorem push (h : Doubly next prev head tail l) (ha : a ∉ l) :
    Doubly (Function.update next a head)
      (fun p => if head = some p then some a else Function.update prev a none p) (some a)
      (if tail = none then some a else tail) (a :: l) := by
  refine ⟨h.forward.push ha, ?_⟩
  rw [List.reverse_cons]
  cases l with
  | nil =>
    obtain rfl : head = none := h.forward
    obtain rfl : tail = none := h.backward
    simp
  | cons b l =>
    obtain rfl : head = some b := h.forward.1
    have htail : tail ≠ none := by
      rw [h.tail_eq]
      simp
    have hnot : a ∉ l.reverse ++ [b] := by
      simp only [List.mem_cons, not_or] at ha
      simpa using ⟨ha.2, ha.1⟩
    have hback : Chain (Function.update prev a none) tail (l.reverse ++ [b]) := by
      rw [← List.reverse_cons] at hnot ⊢
      exact h.backward.update_of_notMem hnot none
    rw [if_neg htail, List.reverse_cons, List.append_assoc]
    refine (hback.concat hnot (Function.update_self ..)).congr fun p _ => ?_
    by_cases hp : p = b
    · subst hp
      simp
    · rw [Function.update_of_ne hp, if_neg fun e => hp (Option.some.inj e).symm]

/-- The cell between two others is taken out. -/
theorem unlink (h : Doubly next prev head tail l) (ha : a ∈ l) (hh : head ≠ some a)
    (ht : tail ≠ some a) :
    Doubly (fun p => if prev a = some p then next a else next p)
      (fun p => if next a = some p then prev a else prev p) head tail (l.erase a) := by
  have hnodup := h.forward.nodup
  obtain ⟨l₁, l₂, rfl⟩ := List.append_of_mem ha
  have hnot : a ∉ l₁ := fun h₁ =>
    ((List.nodup_append.mp hnodup).2.2 a h₁ a (List.mem_cons_self ..)) rfl
  rw [List.erase_append_right _ hnot, List.erase_cons_head]
  -- the neighbours of the cell
  obtain ⟨l₁, x, rfl⟩ : ∃ l x, l₁ = l ++ [x] := by
    rcases List.eq_nil_or_concat l₁ with rfl | ⟨l, x, rfl⟩
    · exact absurd h.forward.1 hh
    · exact ⟨l, x, by simp⟩
  obtain ⟨y, l₂, rfl⟩ : ∃ y l, l₂ = y :: l := by
    cases l₂ with
    | nil =>
      refine absurd h.tail_eq ?_
      simpa using ht
    | cons y l => exact ⟨y, l, rfl⟩
  have hf : Chain next head (l₁ ++ x :: a :: y :: l₂) := by simpa using h.forward
  have hb : Chain prev tail (l₂.reverse ++ y :: a :: x :: l₁.reverse) := by simpa using h.backward
  have hnext : next a = some y := by
    have hrest : Chain next head ((l₁ ++ [x]) ++ a :: y :: l₂) := by simpa using hf
    exact hrest.drop.1
  have hprev : prev a = some x := by
    have hrest : Chain prev tail ((l₂.reverse ++ [y]) ++ a :: x :: l₁.reverse) := by simpa using hb
    exact hrest.drop.1
  constructor
  · have := hf.unlink
    rw [List.append_assoc]
    refine this.congr fun p _ => ?_
    rw [hprev, Function.update_apply]
    simp [eq_comm]
  · have := hb.unlink
    rw [List.reverse_append, List.reverse_append, List.reverse_cons, List.append_assoc]
    refine this.congr fun p _ => ?_
    rw [hnext, Function.update_apply]
    simp [eq_comm]

end Update

end Doubly

/-- The list `l` gone through from the tail on, where some cells were taken out by
redirecting their neighbours while the slots stayed: `rest` is still to come, `kept`
was passed and left in. A first and a last cell that were taken out are met all the same. -/
structure Combed (next prev : α → Option α) (head tail : Option α) (l kept rest : List α) : Prop where
  forward : ∃ front, Chain next head (front ++ rest.reverse ++ kept.reverse) ∧ front ⊆ l ∧
    (rest ≠ [] → front = [])
  backward : ∃ passed, Chain prev tail (passed ++ rest) ∧ passed ⊆ l ∧ kept ⊆ passed ∧
    ∀ a, kept.getLast? = some a → passed.getLast? = some a
  rest_subset : rest ⊆ l

namespace Combed

variable {next next' prev prev' : α → Option α} {head tail : Option α} {a : α}
  {l kept rest : List α}

theorem start (h : Doubly next prev head tail l) : Combed next prev head tail l [] l.reverse :=
  ⟨⟨[], by simpa using h.forward, List.nil_subset _, fun _ => rfl⟩,
    ⟨[], by simpa using h.backward, List.nil_subset _, by simp, by simp⟩,
    fun _ ha => List.mem_reverse.mp ha⟩

theorem kept_subset (h : Combed next prev head tail l kept rest) : kept ⊆ l := by
  obtain ⟨-, ⟨passed, -, hpassed, hkept, -⟩, -⟩ := h
  exact List.Subset.trans hkept hpassed

theorem mem_of_reach_next (h : Combed next prev head tail l kept rest) (ha : Reach next head a) :
    a ∈ l := by
  have hkept := h.kept_subset
  obtain ⟨⟨front, hf, hfront, -⟩, -, hrest⟩ := h
  have ha := (hf.reach_iff a).mp ha
  simp only [List.mem_append, List.mem_reverse] at ha
  rcases ha with (ha | ha) | ha
  · exact hfront ha
  · exact hrest ha
  · exact hkept ha

theorem mem_of_reach_prev (h : Combed next prev head tail l kept rest) (ha : Reach prev tail a) :
    a ∈ l := by
  obtain ⟨-, ⟨passed, hb, hpassed, -⟩, hrest⟩ := h
  rcases List.mem_append.mp ((hb.reach_iff a).mp ha) with ha | ha
  · exact hpassed ha
  · exact hrest ha

theorem reach_next (h : Combed next prev head tail l kept rest) (ha : a ∈ kept ∨ a ∈ rest) :
    Reach next head a := by
  obtain ⟨⟨front, hf, -⟩, -⟩ := h
  refine (hf.reach_iff a).mpr ?_
  simp only [List.mem_append, List.mem_reverse]
  tauto

theorem reach_prev (h : Combed next prev head tail l kept rest) (ha : a ∈ kept ∨ a ∈ rest) :
    Reach prev tail a := by
  obtain ⟨-, ⟨passed, hb, -, hkept, -⟩, -⟩ := h
  exact (hb.reach_iff a).mpr (List.mem_append.mpr (ha.imp_left fun h => hkept h))

theorem congr (h : Combed next prev head tail l kept rest) (hn : ∀ a ∈ l, next' a = next a)
    (hp : ∀ a ∈ l, prev' a = prev a) : Combed next' prev' head tail l kept rest := by
  have hnext : ∀ a, Reach next head a → next' a = next a := fun a ha =>
    hn a (h.mem_of_reach_next ha)
  have hprev : ∀ a, Reach prev tail a → prev' a = prev a := fun a ha =>
    hp a (h.mem_of_reach_prev ha)
  obtain ⟨⟨front, hf, hfront⟩, ⟨passed, hb, hpassed⟩, hrest⟩ := h
  exact ⟨⟨front, hf.congr fun a ha => hnext a ((hf.reach_iff a).mpr ha), hfront⟩,
    ⟨passed, hb.congr fun a ha => hprev a ((hb.reach_iff a).mpr ha), hpassed⟩, hrest⟩

/-- The next cell is left in. -/
theorem keep (h : Combed next prev head tail l kept (a :: rest)) :
    Combed next prev head tail l (kept ++ [a]) rest := by
  obtain ⟨⟨front, hf, -, hfront⟩, ⟨passed, hb, hpassed, hkept, hlast⟩, hrest⟩ := h
  obtain rfl := hfront (List.cons_ne_nil _ _)
  refine ⟨⟨[], by simpa using hf, List.nil_subset _, fun _ => rfl⟩,
    ⟨passed ++ [a], by simpa using hb, ?_, ?_, by simp⟩, List.Subset.trans (List.subset_cons_self ..) hrest⟩
  · refine List.append_subset.mpr ⟨hpassed, ?_⟩
    simpa using hrest (List.mem_cons_self ..)
  · exact List.append_subset.mpr
      ⟨List.Subset.trans hkept (List.subset_append_left ..), List.subset_append_right ..⟩

theorem prev_eq (h : Combed next prev head tail l kept (a :: rest)) : prev a = rest.head? := by
  obtain ⟨-, ⟨passed, hb, -⟩, -⟩ := h
  exact hb.drop.start_eq

theorem next_eq (h : Combed next prev head tail l kept (a :: rest)) : next a = kept.getLast? := by
  obtain ⟨⟨front, hf, -, hfront⟩, -⟩ := h
  obtain rfl := hfront (List.cons_ne_nil _ _)
  have hf : Chain next head (rest.reverse ++ a :: kept.reverse) := by simpa using hf
  rw [hf.drop.start_eq, List.head?_reverse]

theorem prev_head (h : Combed next prev head tail l kept (a :: rest)) (ha : head = some a) :
    prev a = none := by
  rw [h.prev_eq]
  obtain ⟨⟨front, hf, -, hfront⟩, -⟩ := h
  obtain rfl := hfront (List.cons_ne_nil _ _)
  have hf : Chain next head (rest.reverse ++ a :: kept.reverse) := by simpa using hf
  have hnodup := hf.nodup
  have hstart := hf.start_eq
  rw [ha] at hstart
  cases hrest : rest.reverse with
  | nil => rw [List.reverse_eq_nil_iff.mp hrest]; rfl
  | cons b l =>
    rw [hrest] at hstart hnodup
    obtain rfl : a = b := by simpa using hstart
    simp at hnodup

theorem next_tail (h : Combed next prev head tail l kept (a :: rest)) (ha : tail = some a) :
    next a = none := by
  rw [h.next_eq]
  obtain ⟨-, ⟨passed, hb, -, hkept, -⟩, -⟩ := h
  have hnodup := hb.nodup
  have hstart := hb.start_eq
  rw [ha] at hstart
  cases passed with
  | nil => rw [List.subset_nil.mp hkept]; rfl
  | cons b l =>
    obtain rfl : a = b := by simpa using hstart
    simp at hnodup

/-- The next cell is taken out by redirecting its neighbours. -/
theorem drop [DecidableEq α] (h : Combed next prev head tail l kept (a :: rest)) :
    Combed (fun p => if prev a = some p then next a else next p)
      (fun p => if next a = some p then prev a else prev p) head tail l kept rest := by
  have hprev := h.prev_eq
  have hnext := h.next_eq
  obtain ⟨⟨front, hf, -, hfront⟩, ⟨passed, hb, hpassed, hkept, hlast⟩, hrest⟩ := h
  obtain rfl := hfront (List.cons_ne_nil _ _)
  have hf : Chain next head (rest.reverse ++ a :: kept.reverse) := by simpa using hf
  have ha : [a] ⊆ l := by simpa using hrest (List.mem_cons_self ..)
  refine ⟨?_, ?_, List.Subset.trans (List.subset_cons_self ..) hrest⟩
  · cases rest with
    | nil =>
      -- the first cell stays where the head slot points
      refine ⟨[a], ?_, ha, fun hne => absurd rfl hne⟩
      rw [hprev]
      simpa using hf
    | cons b rest =>
      rw [List.head?_cons] at hprev
      have hf : Chain next head (rest.reverse ++ b :: a :: kept.reverse) := by simpa using hf
      refine ⟨[], ?_, List.nil_subset _, fun _ => rfl⟩
      have hout := hf.unlink
      rw [List.nil_append, List.reverse_cons, List.append_assoc]
      refine hout.congr fun p _ => ?_
      rw [hprev, Function.update_apply]
      simp [eq_comm]
  · cases hlast' : kept.getLast? with
    | none =>
      -- no cell behind it was left in, and it stays in front of the others
      rw [hlast'] at hnext
      refine ⟨passed ++ [a], ?_, List.append_subset.mpr ⟨hpassed, ha⟩,
        List.Subset.trans hkept (List.subset_append_left ..), by simp⟩
      rw [hnext]
      simpa using hb
    | some n =>
      rw [hlast'] at hnext
      obtain ⟨l₁, rfl⟩ := List.getLast?_eq_some_iff.mp (hlast n hlast')
      have hb : Chain prev tail (l₁ ++ n :: a :: rest) := by simpa using hb
      refine ⟨l₁ ++ [n], ?_, hpassed, hkept, by simp⟩
      have hout := hb.unlink
      rw [List.append_assoc]
      refine hout.congr fun p _ => ?_
      rw [hnext, Function.update_apply]
      simp [eq_comm]

end Combed

/-- The stack below `top`, linked both ways. -/
structure Stack (next prev : α → Option α) (top : Option α) (l : List α) : Prop where
  forward : Chain next top l
  first : ∀ a, top = some a → prev a = none
  back : ∀ a ∈ l, ∀ b, next a = some b → prev b = some a

namespace Stack

variable {next next' prev prev' : α → Option α} {top : Option α} {a : α} {l : List α}

theorem congr (h : Stack next prev top l) (hn : ∀ a ∈ l, next' a = next a)
    (hp : ∀ a ∈ l, prev' a = prev a) : Stack next' prev' top l := by
  refine ⟨h.forward.congr hn, fun a ha => ?_, fun a ha b hab => ?_⟩
  · rw [hp a (h.forward.start_mem ha)]
    exact h.first a ha
  · rw [hn a ha] at hab
    rw [hp b (h.forward.next_mem ha hab)]
    exact h.back a ha b hab

section Update

variable [DecidableEq α]

theorem push (h : Stack next prev top l) (ha : a ∉ l) :
    Stack (Function.update next a top)
      (fun p => if top = some p then some a else Function.update prev a none p) (some a)
      (a :: l) := by
  refine ⟨h.forward.push ha, fun b hb => ?_, fun b hb c hbc => ?_⟩
  · obtain rfl : a = b := Option.some.inj hb
    rw [if_neg fun htop => ha (h.forward.start_mem htop), Function.update_self]
  · rcases List.mem_cons.mp hb with rfl | hb
    · rw [Function.update_self] at hbc
      rw [if_pos hbc]
    · rw [Function.update_of_ne (ne_of_mem_of_not_mem hb ha)] at hbc
      have hc := h.forward.next_mem hb hbc
      have hback := h.back b hb c hbc
      -- the old top had no predecessor
      have htop : top ≠ some c := fun htop => by
        rw [h.first c htop] at hback
        cases hback
      rw [if_neg htop, Function.update_of_ne (ne_of_mem_of_not_mem hc ha), hback]

theorem pop (h : Stack next prev top (a :: l)) :
    Stack next (fun p => if next a = some p then none else prev p) (next a) l := by
  have hnodup := h.forward.nodup
  refine ⟨h.forward.2, fun b hb => if_pos hb, fun b hb c hbc => ?_⟩
  have hback := h.back b (List.mem_cons_of_mem a hb) c hbc
  -- two cells in front of `c` would be one
  have hne : next a ≠ some c := fun hac => by
    have heq : a = b := Option.some.inj ((h.back a (List.mem_cons_self ..) c hac).symm.trans hback)
    exact (List.nodup_cons.mp hnodup).1 (heq ▸ hb)
  rw [if_neg hne, hback]

end Update

end Stack

end MiniMemcached.Lists
