import Mathlib.Data.List.Basic

/-! A list cut behind every occurrence of a separator: the pieces that end in one, and
what is left behind the last. A list is cut in one way only, so a front of it that ends
in its only separator is the first piece. -/

namespace MiniMemcached.Lists

variable {α : Type*} [DecidableEq α]

/-- The list ends in its only separator. -/
def Ends (sep : α) (l : List α) : Prop := ∃ p, l = p ++ [sep] ∧ sep ∉ p

/-- The pieces that end in a separator, and the rest. -/
def pieces (sep : α) : List α → List (List α) × List α
  | [] => ([], [])
  | a :: l =>
    if a = sep then ([a] :: (pieces sep l).1, (pieces sep l).2)
    else match pieces sep l with
      | ([], rest) => ([], a :: rest)
      | (p :: ps, rest) => ((a :: p) :: ps, rest)

variable {sep : α} {l l' r r' rest : List α} {ps : List (List α)}

omit [DecidableEq α] in
theorem Ends.ne_nil (h : Ends sep l) : l ≠ [] := by
  obtain ⟨p, rfl, -⟩ := h
  simp

omit [DecidableEq α] in
theorem Ends.mem (h : Ends sep l) : sep ∈ l := by
  obtain ⟨p, rfl, -⟩ := h
  simp

theorem pieces_flatten (sep : α) (l : List α) : (pieces sep l).1.flatten ++ (pieces sep l).2 = l := by
  induction l with
  | nil => rfl
  | cons a l ih =>
    unfold pieces
    split
    · simpa using ih
    · split
      · rename_i rest hrest
        rw [hrest] at ih
        simpa using ih
      · rename_i p ps rest hrest
        rw [hrest] at ih
        simpa using ih

theorem pieces_spec (sep : α) (l : List α) :
    (∀ p ∈ (pieces sep l).1, Ends sep p) ∧ sep ∉ (pieces sep l).2 := by
  induction l with
  | nil => exact ⟨by simp [pieces], by simp [pieces]⟩
  | cons a l ih =>
    obtain ⟨hends, hrest⟩ := ih
    unfold pieces
    split
    · rename_i ha
      refine ⟨fun p hp => ?_, hrest⟩
      rcases List.mem_cons.mp hp with rfl | hp
      · exact ⟨[], by simp [ha], by simp⟩
      · exact hends p hp
    · rename_i ha
      split
      · rename_i rest hpieces
        rw [hpieces] at hrest
        refine ⟨by simp, fun hmem => ?_⟩
        rcases List.mem_cons.mp hmem with hmem | hmem
        · exact ha hmem.symm
        · exact hrest hmem
      · rename_i p ps rest hpieces
        rw [hpieces] at hends hrest
        refine ⟨fun q hq => ?_, hrest⟩
        rcases List.mem_cons.mp hq with rfl | hq
        · obtain ⟨p', rfl, hp'⟩ := hends p List.mem_cons_self
          refine ⟨a :: p', rfl, fun hmem => ?_⟩
          rcases List.mem_cons.mp hmem with hmem | hmem
          · exact ha hmem.symm
          · exact hp' hmem
        · exact hends q (List.mem_cons_of_mem p hq)

omit [DecidableEq α] in
/-- Two fronts of a list that end in their only separator are the same. -/
theorem Ends.unique (h : Ends sep l) (h' : Ends sep l') (heq : l ++ r = l' ++ r') : l = l' := by
  obtain ⟨p, rfl, hp⟩ := h
  obtain ⟨p', rfl, hp'⟩ := h'
  rw [List.append_assoc, List.append_assoc] at heq
  induction p generalizing p' with
  | nil =>
    cases p' with
    | nil => rfl
    | cons a p' =>
      have ha : sep = a := (List.cons.inj heq).1
      exact absurd List.mem_cons_self (ha ▸ hp')
  | cons a p ih =>
    cases p' with
    | nil =>
      have ha : a = sep := (List.cons.inj heq).1
      exact absurd List.mem_cons_self (ha ▸ hp)
    | cons b p' =>
      rw [List.cons_append, List.cons_append] at heq
      obtain ⟨rfl, htails⟩ := List.cons.inj heq
      have htail := ih (fun hmem => hp (List.mem_cons_of_mem a hmem)) p'
        (fun hmem => hp' (List.mem_cons_of_mem a hmem)) htails
      rw [List.cons_append, List.cons_append, htail]

omit [DecidableEq α] in
/-- A front that ends in its only separator is the first piece. -/
theorem Ends.head (h : Ends sep l) (heq : l ++ r = ps.flatten ++ rest) (hps : ∀ p ∈ ps, Ends sep p)
    (hrest : sep ∉ rest) : ∃ ps', ps = l :: ps' := by
  cases ps with
  | nil =>
    refine absurd ?_ hrest
    rw [List.flatten_nil, List.nil_append] at heq
    rw [← heq]
    exact List.mem_append_left r h.mem
  | cons p ps =>
    rw [List.flatten_cons, List.append_assoc] at heq
    exact ⟨ps, by rw [h.unique (hps p List.mem_cons_self) heq]⟩

end MiniMemcached.Lists
