import MiniMemcached.Cache.LockOrder
import MiniMemcached.Runs.Contention

/-! The worker threads at the locks of the cache. Each carries out public operations, one
after another, and finds the cache in whatever state the others have left. -/

namespace MiniMemcached

open Runs

namespace Cache

/-- The lock events of a public operation that returns. -/
def LockEvents (es : List (LockEvent Lock)) : Prop :=
  ∃ s s' op evs, Cache.perform s op = .ok s' ∧ s'.trace = List.reverse evs ++ s.trace ∧
    es = evs.filterMap Event.locking

theorem LockEvents.follow {es : List (LockEvent Lock)} (h : LockEvents es) :
    Runs.follow Lock.rank [] es = some [] := by
  obtain ⟨s, s', op, evs, hperform, htrace, rfl⟩ := h
  obtain ⟨-, -, evs', htrace', hfollow⟩ := keeps_perform hperform ⟨List.nodup_nil, nofun⟩
  obtain rfl : evs' = evs := by
    apply List.reverse_injective
    exact List.append_cancel_right (htrace'.symm.trans htrace)
  exact hfollow

/-- Any number of threads, each of which carries out any public operations, with their
lock events interleaved in any way: at every time each lock has one holder, a thread
between two operations holds none, no threads wait for one another in a circle, and as
long as one is in an operation, one that is does not wait. -/
theorem threads_unblocked {ι : Type} [DecidableEq ι] {is : List ι} {ts : Threads ι Lock}
    (hpath : Path (Threads.Turn LockEvents) .idle is ts) :
    (∀ i j l, l ∈ ts.held i → l ∈ ts.held j → i = j) ∧ (∀ i, ts.rest i = [] → ts.held i = []) ∧
      (∀ i, ¬Relation.TransGen ts.WaitsFor i i) ∧
      (Finite ι → (∃ i, ts.rest i ≠ []) → ∃ i, ts.rest i ≠ [] ∧ ∀ j, ¬ts.WaitsFor i j) := by
  have h := Threads.Orderly.path (fun _ => LockEvents.follow) hpath
  exact ⟨h.one, fun _ => h.held_nil, fun _ => h.no_circle, fun _ => h.exists_free⟩

/-- A lookup that finds nothing takes its item lock and gives it back. -/
theorem lockEvents_miss : LockEvents [.lock (.item 0), .unlock (.item 0)] := by
  have htrial : (Cache.init 1 .twoChunks (fun _ => true) 0).any (fun s =>
      (s.perform (.itemGet [97])).toOption.any fun s' =>
        decide (s'.trace = [.unlock (.item 0), .lock (.item 0)] ∧ s.trace = [])) = true := by decide +kernel
  obtain ⟨s, -, hs⟩ := (Option.any_eq_true _ _).mp htrial
  obtain ⟨s', hs', htrace⟩ := (Option.any_eq_true _ _).mp hs
  obtain ⟨htrace', htrace⟩ := of_decide_eq_true htrace
  refine ⟨s, s', .itemGet [97], [.lock (.item 0), .unlock (.item 0)], Result.eq_ok_of_toOption hs', ?_, rfl⟩
  rw [htrace', htrace]
  rfl

/-- Two threads look up the same bucket, and the second one waits for the first. -/
theorem threads_unblocked_two : ∃ ts : Threads Bool Lock,
    Path (Threads.Turn LockEvents) .idle [false, true, false] ts ∧
    ts.WaitsFor true false ∧ ¬Relation.TransGen ts.WaitsFor true true ∧
    ∃ i, ts.rest i ≠ [] ∧ ∀ j, ¬ts.WaitsFor i j := by
  have hpath : Path (Threads.Turn LockEvents) .idle [false, true, false] _ :=
    .cons (.begin rfl lockEvents_miss) (.cons (.begin rfl lockEvents_miss)
      (.cons (.lock (l := .item 0) rfl fun j => by cases j <;> exact List.not_mem_nil) (.nil _)))
  obtain ⟨-, -, hcircle, hfree⟩ := threads_unblocked hpath
  refine ⟨_, hpath, ⟨_, _, rfl, List.mem_cons_self⟩, hcircle true, hfree inferInstance ⟨true, ?_⟩⟩
  exact List.cons_ne_nil _ _

end Cache

end MiniMemcached
