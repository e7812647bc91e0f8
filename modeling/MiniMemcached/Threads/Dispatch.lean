import Mathlib.Data.Int.CardIntervalMod
import MiniMemcached.Threads.Handover

/-! Spreading the connections over the workers. Where the k-th call goes to worker
`k mod T`, every worker gets its share up to one. `dispatch_conn_new` computes the
number from `last_threadid` and never writes it back, so that all calls go to the
worker of the first one. -/

namespace MiniMemcached.Threads

open Runs

/-- The calls out of `n` that go to worker `i`, where the k-th goes to `k mod T`. -/
theorem count_cyclic {T i : ℕ} (hi : i < T) (n : ℕ) :
    ((List.range n).map (· % T)).count i = n / T + if i < n % T then 1 else 0 := by
  have hcount : ((List.range n).map (· % T)).count i = n.count (· ≡ i [MOD T]) := by
    induction n with
    | zero => rfl
    | succ n ih =>
      have hmod : n % T = i ↔ n ≡ i [MOD T] := by rw [Nat.ModEq, Nat.mod_eq_of_lt hi]
      rw [List.range_succ, List.map_append, List.count_append, ih, Nat.count_succ]
      simp [List.count_singleton, hmod]
  rw [hcount, Nat.count_modEq_card n (by omega), Nat.mod_eq_of_lt hi]

/-- Each worker gets its share, up to one. -/
theorem share_cyclic {T i : ℕ} (hi : i < T) (n : ℕ) :
    ((List.range n).map (· % T)).count i = n / T ∨
      ((List.range n).map (· % T)).count i = (n + T - 1) / T := by
  rw [count_cyclic hi]
  split_ifs with hlt
  · have hdiv := Nat.div_add_mod n T
    have hsplit : n + T - 1 = n % T - 1 + T * (n / T + 1) := by
      rw [Nat.mul_add, Nat.mul_one]
      omega
    have hsmall : n % T - 1 < T := (Nat.sub_le ..).trans_lt (Nat.mod_lt n (by omega))
    right
    rw [hsplit, Nat.add_mul_div_left _ _ (by omega), Nat.div_eq_of_lt hsmall, Nat.zero_add]
  · exact .inl rfl

namespace Server

/-- The workers that the calls of `dispatch_conn_new` went to, in order. -/
def chosenBy (t : Server) : List ℕ := t.dispatched.map Prod.fst

end Server

/-- With `T` workers the k-th call went to worker `k mod T`, and of `n` calls every
worker got `n / T`, rounded down or up. -/
structure RoundRobin (T : ℕ) (t : Server) : Prop where
  kth : t.chosenBy = (List.range t.chosenBy.length).map (· % T)
  share : ∀ i < T, t.chosenBy.count i = t.chosenBy.length / T ∨
    t.chosenBy.count i = (t.chosenBy.length + T - 1) / T

theorem roundRobin_of_kth {T : ℕ} {t : Server}
    (h : t.chosenBy = (List.range t.chosenBy.length).map (· % T)) : RoundRobin T t := by
  refine ⟨h, fun i hi => ?_⟩
  rw [h, List.length_map, List.length_range]
  exact share_cyclic hi _

/-- The listener starts a call. -/
def Move.calls : Move → Bool
  | .push .. => true
  | _ => false

/-- The first worker is chosen by every call. -/
structure Fixed (t : Server) : Prop where
  threadid : t.threadid = 0
  first : ∀ i ∈ t.chosenBy, i = 0

theorem chosenBy_step {t t' : Server} {a : Move} (h : Fixed t) (hs : step t a = .ok t') :
    t'.chosenBy = t.chosenBy ++ if a.calls then [0] else [] := by
  cases a with
  | push sfd newState eventFlag =>
    obtain ⟨i, hi, -, ht', -⟩ := Server.push_spec hs
    rw [h.threadid] at hi
    obtain rfl : i = 0 := by exact_mod_cast hi.symm
    simp [ht', Server.chosenBy, Server.pushItem, Move.calls]
  | notify written =>
    obtain ⟨-, -, -, -, -, -, rfl⟩ := Server.notify_spec hs
    exact (List.append_nil _).symm
  | read i =>
    obtain ⟨-, p, buf, rest, -, -, -, -, rfl, -⟩ := Server.read_spec hs
    exact (List.append_nil _).symm
  | pop i =>
    obtain ⟨item, rest, -, -, rfl, -⟩ := Server.pop_spec hs
    exact (List.append_nil _).symm

theorem fixed_step {t t' : Server} {a : Move} (h : Fixed t) (hs : step t a = .ok t') :
    Fixed t' ∧ t'.chosenBy.length = t.chosenBy.length + if a.calls then 1 else 0 := by
  refine ⟨⟨(framed_step hs).threadid.trans h.threadid, fun i hi => ?_⟩, ?_⟩
  · rw [chosenBy_step h hs] at hi
    rcases List.mem_append.mp hi with hi | hi
    · exact h.first i hi
    · split_ifs at hi
      · exact List.mem_singleton.mp hi
      · cases hi
  · rw [chosenBy_step h hs, List.length_append]
    split_ifs <;> rfl

theorem fixed_run {t t' : Server} {as : List Move} (h : Fixed t) (hrun : run step t as = .ok t') :
    Fixed t' ∧ t'.chosenBy.length = t.chosenBy.length + as.countP Move.calls := by
  induction as generalizing t with
  | nil =>
    cases hrun
    exact ⟨h, rfl⟩
  | cons a as ih =>
    obtain ⟨t₁, hs, hrest⟩ := (run_cons_eq_ok step).mp hrun
    obtain ⟨h₁, hlen₁⟩ := fixed_step h hs
    obtain ⟨h', hlen⟩ := ih h₁ hrest
    refine ⟨h', ?_⟩
    rw [hlen, hlen₁, List.countP_cons]
    omega

/-- The connections are spread just when there is one worker or at most one call. -/
theorem roundRobin_iff (T : ℕ) (hT : 1 ≤ T) (as : List Move) (t : Server)
    (hrun : run step (threadInit T) as = .ok t) :
    RoundRobin T t ↔ T = 1 ∨ as.countP Move.calls ≤ 1 := by
  have hstart : Fixed (threadInit T) :=
    ⟨(threadInit_inv hT).threadid, by simp [Server.chosenBy, threadInit]⟩
  obtain ⟨h, hlen⟩ := fixed_run hstart hrun
  have hzero : t.chosenBy = List.replicate t.chosenBy.length 0 :=
    List.eq_replicate_iff.mpr ⟨rfl, h.first⟩
  have hcalls : t.chosenBy.length = as.countP Move.calls := by
    simpa [Server.chosenBy, threadInit] using hlen
  rw [← hcalls]
  constructor
  · intro hrr
    by_contra hboth
    push Not at hboth
    -- the second call goes to the first worker again
    have hsecond := congrArg (·[1]?) (hzero.symm.trans hrr.kth)
    simp only [List.getElem?_replicate, List.getElem?_map, List.getElem?_range hboth.2, if_pos hboth.2,
      Option.map_some, Option.some.injEq] at hsecond
    rw [Nat.mod_eq_of_lt (by omega)] at hsecond
    cases hsecond
  · intro hcond
    refine roundRobin_of_kth ?_
    rw [hzero, List.length_replicate]
    refine (List.eq_replicate_iff.mpr ⟨by simp, fun i hi => ?_⟩).symm
    obtain ⟨k, hk, rfl⟩ := List.mem_map.mp hi
    rcases hcond with rfl | hone
    · exact Nat.mod_one k
    · obtain rfl : k = 0 := by
        have := List.mem_range.mp hk
        omega
      exact Nat.zero_mod T

/-- Connections that the listener accepts and announces. -/
def acceptAll (n : ℕ) : List Move := (List.replicate n [.push 7 .connRead 1, .notify true]).flatten

theorem roundRobin_acceptOne : ∃ t, run step (threadInit 2) (acceptAll 1) = .ok t ∧ RoundRobin 2 t := by
  obtain ⟨t, ht⟩ : ∃ t, run step (threadInit 2) (acceptAll 1) = .ok t := ⟨_, rfl⟩
  exact ⟨t, ht, (roundRobin_iff 2 (by decide) (acceptAll 1) t ht).mpr (.inr (by decide))⟩

/-- With two workers both of two connections go to the first. -/
theorem not_roundRobin_acceptTwo : ¬∀ T : ℕ, 1 ≤ T → ∀ as t, run step (threadInit T) as = .ok t →
    RoundRobin T t := by
  intro h
  obtain ⟨t, ht, hchosen⟩ : ∃ t, run step (threadInit 2) (acceptAll 2) = .ok t ∧ t.chosenBy = [0, 0] :=
    ⟨_, rfl, rfl⟩
  have hkth := (h 2 (by decide) (acceptAll 2) t ht).kth
  rw [hchosen] at hkth
  cases hkth

end MiniMemcached.Threads
