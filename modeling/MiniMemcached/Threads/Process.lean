import Mathlib.Tactic.Abel
import MiniMemcached.Protocol.Server
import MiniMemcached.Runs.Ownership
import MiniMemcached.Threads.Handover

/-! The process as a whole. The listener accepts connections and hands their descriptors
to the workers, each of which builds a `Conn` of its own from what it pops; the machines
of the connections take their turns, and `conn_close` gives a descriptor back, which
`accept` may then return again. Where a descriptor cannot be made nonblocking, the listener closes
its own socket in its place. -/

namespace MiniMemcached

open Memory Runs

/-- The event flag of a connection that is read from. -/
def EV_READ : ℤ := 1

/-- The `errno` that `accept` leaves. -/
inductive Errno
  | again
  | tooManyFiles
  | other
  deriving DecidableEq, Repr

inductive AcceptResult
  | failed (errno : Errno)
  | made (sfd : ℤ)
  deriving DecidableEq, Repr

/-- `Socket::set_nonblock`, over what its two calls of `fcntl` return. -/
def setNonblock (getfl setfl : ℤ) : Bool := !(decide (getfl < 0) || decide (setfl < 0))

/-- The connection that listens. Its state is `conn_listening` for good; `running` says that
`drive_machine` is at work on it, and `acceptSfd` is set between `accept` and the push. -/
structure Listener where
  sfd : ℤ
  running : Bool
  acceptSfd : Option ℤ
  deriving DecidableEq, Repr

/-- The threads, the cache with the connections, and the open descriptors of the sockets.
Connection `k` is the one that is built from the k-th item that is popped, in the memory
that `served` has for it. `accepted`, `lost` and `closed` keep the history: what `accept`
returned, what was not dispatched after that, and which connections ran `conn_close`. -/
structure Process where
  threads : Threads.Server
  served : Server
  listener : Listener
  opened : Finset ℤ
  accepted : List ℤ
  lost : List ℤ
  closed : Finset ℕ

/-- What keeps the process from taking a step. -/
inductive Halt
  | stuck (s : Threads.Stuck)
  | fault (f : Fault)
  deriving DecidableEq, Repr

/-- The constructor of `Conn`. The members that it does not set are what the memory held. -/
def Serving.construct (s : Serving) (stateInit : ConnStates) : Serving where
  world :=
    { s.world with conn :=
      { Conn.new s.world.conn.flagPrecmd s.world.conn.flagShake s.world.conn.noreply s.world.conn.rbuf
          s.world.conn.wbuf s.world.conn.cas with
        state := stateInit } }
  running := false

/-- The connection that is stirred. -/
def Stir.conn : Stir → Option ℕ
  | .event i .. => some i
  | .turn i => some i
  | .clock _ => none

namespace Process

/-- A step of the listener, of a worker that is handed a connection, or of a connection. -/
inductive Move
  | wake
  | accept (r : AcceptResult) (getfl setfl : ℤ)
  | push
  | notify (written : Bool)
  | read (worker : ℕ)
  | pop (worker : ℕ)
  | stir (a : Stir)

/-- The listening socket is open and the workers have started. -/
def start (numWorkerThread : ℕ) (sfd : ℤ) (V : Server) : Process where
  threads := Threads.threadInit numWorkerThread
  served := V
  listener := ⟨sfd, false, none⟩
  opened := {sfd}
  accepted := []
  lost := []
  closed := ∅

/-- The number of connections that were built. -/
def built (P : Process) : ℕ := P.threads.popped.length

/-- The descriptor of connection `k`. -/
def sfdOf (P : Process) (k : ℕ) : ℤ := (P.threads.popped[k]?.map (·.2.sfd)).getD (-1)

def setRunning (P : Process) (b : Bool) : Process := { P with listener := { P.listener with running := b } }

/-- The accepted descriptor is ready to be dispatched. -/
def accepting (P : Process) (sfd : ℤ) : Process :=
  { P with
    listener := { P.listener with acceptSfd := some sfd }
    opened := insert sfd P.opened
    accepted := P.accepted ++ [sfd] }

/-- `close(sfd)` names the member, which is the listening socket, and the accepted
descriptor is forgotten. -/
def losing (P : Process) (sfd : ℤ) : Process :=
  { P with
    opened := (insert sfd P.opened).erase P.listener.sfd
    accepted := P.accepted ++ [sfd]
    lost := P.lost ++ [sfd] }

/-- A turn of `drive_machine` in `conn_listening`, up to the call of `dispatch_conn_new`.
`accept` fails on a closed socket, and else returns a descriptor that is not open. -/
def accept (P : Process) (r : AcceptResult) (getfl setfl : ℤ) : Except Halt Process :=
  if P.listener.running = false ∨ P.listener.acceptSfd.isSome ∨ P.threads.chosen.isSome then
    .error (.stuck .notNext)
  else
    match r with
    | .failed _ => .ok (P.setRunning false)
    | .made sfd =>
      if P.listener.sfd ∉ P.opened ∨ sfd ∈ P.opened then .error (.stuck .badFd)
      else if setNonblock getfl setfl then .ok (P.accepting sfd)
      else .ok (P.losing sfd)

def dispatching (P : Process) (t : Threads.Server) : Process :=
  { P with threads := t, listener := { P.listener with acceptSfd := none } }

/-- `dispatch_conn_new` up to the push. -/
def push (P : Process) : Except Halt Process :=
  match P.listener.acceptSfd with
  | none => .error (.stuck .notNext)
  | some sfd => do
    let t ← (P.threads.push sfd .connRead EV_READ).mapError .stuck
    pure (P.dispatching t)

/-- The rest of `dispatch_conn_new`, and the end of the turn. -/
def notify (P : Process) (written : Bool) : Except Halt Process := do
  let t ← (P.threads.notify written).mapError .stuck
  pure { P.setRunning false with threads := t }

def read (P : Process) (i : ℕ) : Except Halt Process := do
  let t ← (P.threads.read i).mapError .stuck
  pure { P with threads := t }

/-- The next connection is built. -/
def building (P : Process) (t : Threads.Server) (stateInit : ConnStates) : Process :=
  { P with
    threads := t
    served := { P.served with
      conn := Function.update P.served.conn P.built ((P.served.conn P.built).construct stateInit) } }

/-- Worker `i` pops an item and builds the connection. -/
def pop (P : Process) (i : ℕ) : Except Halt Process := do
  let t ← (P.threads.pop i).mapError .stuck
  pure (P.building t ((t.popped[P.built]?.map (·.2.state)).getD .connClosed))

/-- The connection that a turn closes. -/
def shut (P : Process) : Stir → Option ℕ
  | .turn k =>
    if (P.served.conn k).running = true ∧ (P.served.conn k).world.conn.state = .connClosed then some k
    else none
  | _ => none

/-- The connections after a stir; `conn_close` closes its descriptor. -/
def stirring (P : Process) (a : Stir) (V : Server) : Process :=
  { P with
    served := V
    opened := (P.shut a).elim P.opened fun k => P.opened.erase (P.sfdOf k)
    closed := (P.shut a).elim P.closed fun k => insert k P.closed }

/-- Only a connection that was built is stirred. -/
def stir (P : Process) (a : Stir) : Except Halt Process :=
  if a.conn.all (· < P.built) then do
    let V ← (P.served.step a).mapError .fault
    pure (P.stirring a V)
  else .error (.stuck .badIndex)

def step (P : Process) : Move → Except Halt Process
  | .wake => .ok (P.setRunning true)
  | .accept r getfl setfl => P.accept r getfl setfl
  | .push => P.push
  | .notify written => P.notify written
  | .read i => P.read i
  | .pop i => P.pop i
  | .stir a => P.stir a

/-- The items in the queues of the workers. -/
def queued (t : Threads.Server) : List Threads.Item := t.workthreads.flatMap (·.itemQueue)

/-- The descriptors of the connections that are built and not closed. -/
def live (P : Process) : Multiset ℤ := remaining P.built P.closed P.sfdOf

/-- The listening socket, unless it was closed in the place of another. -/
def listening (P : Process) : Multiset ℤ := if P.lost = [] then {P.listener.sfd} else 0

/-- Who holds a descriptor: the listener its own and one that it is about to dispatch, a queue,
a connection, or nobody any more. -/
def holders (P : Process) : Multiset ℤ :=
  P.listening + (P.listener.acceptSfd.toList : Multiset ℤ) +
    ((queued P.threads).map (·.sfd) : Multiset ℤ) + P.live + (P.lost : Multiset ℤ)

/-- What each step does, and what it takes for the step. -/
inductive Moved (P : Process) : Move → Process → Prop
  | wake : Moved P .wake (P.setRunning true)
  | refused {errno : Errno} {getfl setfl : ℤ} :
      Moved P (.accept (.failed errno) getfl setfl) (P.setRunning false)
  | accepted {sfd getfl setfl : ℤ} (hidle : P.listener.acceptSfd = none) (hlisten : P.listener.sfd ∈ P.opened)
      (hfresh : sfd ∉ P.opened) : Moved P (.accept (.made sfd) getfl setfl) (P.accepting sfd)
  | lost {sfd getfl setfl : ℤ} (hidle : P.listener.acceptSfd = none) (hlisten : P.listener.sfd ∈ P.opened)
      (hfresh : sfd ∉ P.opened) : Moved P (.accept (.made sfd) getfl setfl) (P.losing sfd)
  | pushed {sfd : ℤ} {t : Threads.Server} (hsfd : P.listener.acceptSfd = some sfd)
      (ht : P.threads.push sfd .connRead EV_READ = .ok t) : Moved P .push (P.dispatching t)
  | notified {written : Bool} {t : Threads.Server} (ht : P.threads.notify written = .ok t) :
      Moved P (.notify written) { P.setRunning false with threads := t }
  | read {i : ℕ} {t : Threads.Server} (ht : P.threads.read i = .ok t) :
      Moved P (.read i) { P with threads := t }
  | popped {i : ℕ} {item : Threads.Item} {rest : List Threads.Item} {t : Threads.Server}
      (hq : P.threads.queue i = item :: rest) (ht : P.threads.pop i = .ok t) :
      Moved P (.pop i) (P.building t item.state)
  | turned {a : Stir} {V : Server} (hbuilt : ∀ k ∈ a.conn, k < P.built) (hV : P.served.step a = .ok V) :
      Moved P (.stir a) (P.stirring a V)

theorem mapError_bind_eq_ok {ε α β : Type} {x : Except ε α} {f : ε → Halt} {g : α → Except Halt β} {b : β} :
    (x.mapError f >>= g) = .ok b ↔ ∃ a, x = .ok a ∧ g a = .ok b := by
  cases x with
  | error e => simp [Except.mapError, bind, Except.bind]
  | ok a => simp [Except.mapError, bind, Except.bind]

variable {P P' : Process} {m : Move}

theorem step_spec (h : P.step m = .ok P') : Moved P m P' := by
  cases m with
  | wake =>
    cases h
    exact .wake
  | accept r getfl setfl =>
    simp only [step, accept] at h
    split at h
    · cases h
    rename_i hidle
    push Not at hidle
    have hnone : P.listener.acceptSfd = none := by simpa using hidle.2.1
    cases r with
    | failed errno =>
      cases h
      exact .refused
    | made sfd =>
      dsimp only at h
      split at h
      · cases h
      rename_i hopen
      push Not at hopen
      split at h
      · cases h
        exact .accepted hnone hopen.1 hopen.2
      · cases h
        exact .lost hnone hopen.1 hopen.2
  | push =>
    simp only [step, push] at h
    split at h
    · cases h
    rename_i sfd hsfd
    obtain ⟨t, ht, h⟩ := mapError_bind_eq_ok.mp h
    cases h
    exact .pushed hsfd ht
  | notify written =>
    obtain ⟨t, ht, h⟩ := mapError_bind_eq_ok.mp h
    cases h
    exact .notified ht
  | read i =>
    obtain ⟨t, ht, h⟩ := mapError_bind_eq_ok.mp h
    cases h
    exact .read ht
  | pop i =>
    obtain ⟨t, ht, h⟩ := mapError_bind_eq_ok.mp h
    obtain ⟨item, rest, hq, -, rfl, -⟩ := Threads.Server.pop_spec ht
    cases h
    have hstate : ((P.threads.popItem i item rest).popped[P.built]?.map (·.2.state)).getD .connClosed =
        item.state := by simp [Threads.Server.popItem, built]
    rw [hstate]
    exact .popped hq ht
  | stir a =>
    simp only [step, stir] at h
    split at h
    · rename_i hall
      obtain ⟨V, hV, h⟩ := mapError_bind_eq_ok.mp h
      cases h
      exact .turned (fun k hk => by simpa [Option.mem_def.mp hk] using hall) hV
    · cases h

end Process

namespace Threads

/-- Every item goes to the first worker, and what that one popped is followed by what it still
has in its queue. -/
structure Lined (t : Server) : Prop where
  threadid : t.threadid = 0
  idle : ∀ i ≠ 0, t.queue i = []
  line : t.dispatched.map Prod.snd = t.popped.map Prod.snd ++ t.queue 0

namespace Lined

variable {t t' : Server}

theorem queued_eq (h : Lined t) : Process.queued t = t.queue 0 := by
  have hidle := h.idle
  unfold Process.queued Server.queue at *
  cases hw : t.workthreads with
  | nil => rfl
  | cons w ws =>
    rw [hw] at hidle
    have hrest : ws.flatMap (·.itemQueue) = [] := by
      refine List.flatMap_eq_nil_iff.mpr fun w' hw' => ?_
      obtain ⟨i, hi⟩ := List.getElem?_of_mem hw'
      have hnil := hidle (i + 1) (Nat.succ_ne_zero i)
      rwa [List.getElem?_cons_succ, hi] at hnil
    rw [List.flatMap_cons, hrest]
    simp

theorem threadInit {n : ℕ} (hn : 1 ≤ n) : Lined (threadInit n) := by
  have h := threadInit_inv hn
  refine ⟨h.threadid, fun i hi => (h.idle i hi).1, ?_⟩
  simp [Threads.threadInit, Server.queue, show 0 < n by omega]

theorem push (h : Lined t) {sfd eventFlag : ℤ} {newState : ConnStates}
    (hs : t.push sfd newState eventFlag = .ok t') :
    Lined t' ∧ t'.queue 0 = t.queue 0 ++ [⟨0, sfd, newState, eventFlag⟩] ∧ t'.popped = t.popped ∧
      t'.dispatched = t.dispatched ++ [(0, ⟨0, sfd, newState, eventFlag⟩)] := by
  obtain ⟨i, hi, -, ht', hframed, -, hqueue⟩ := Server.push_spec hs
  rw [h.threadid] at hi
  obtain rfl : i = 0 := by exact_mod_cast hi.symm
  have hzero := hqueue 0
  rw [if_pos rfl] at hzero
  refine ⟨⟨hframed.threadid.trans h.threadid, fun j hj => ?_, ?_⟩, hzero, by rw [ht']; rfl, by rw [ht']; rfl⟩
  · rw [hqueue, if_neg fun e => hj e.symm, h.idle j hj, List.append_nil]
  · rw [hzero, ht']
    simp [Server.pushItem, Server.modify, h.line]

theorem of_same (h : Lined t) (hframed : Server.Framed t t') (hq : ∀ j, t'.queue j = t.queue j)
    (hd : t'.dispatched = t.dispatched) (hp : t'.popped = t.popped) : Lined t' :=
  ⟨hframed.threadid.trans h.threadid, fun i hi => (hq i).trans (h.idle i hi), by rw [hd, hp, hq, h.line]⟩

/-- Only the first worker gets past `wait_and_pop`. -/
theorem pop (h : Lined t) {i : ℕ} {item : Item} {rest : List Item} (hq : t.queue i = item :: rest)
    (hs : t.pop i = .ok t') :
    Lined t' ∧ t.queue 0 = item :: t'.queue 0 ∧ t'.popped = t.popped ++ [(0, item)] ∧
      t'.dispatched = t.dispatched := by
  obtain rfl : i = 0 := by
    by_contra hi
    rw [h.idle i hi] at hq
    cases hq
  obtain ⟨item', rest', hq', -, ht', hframed, hqueue, -⟩ := Server.pop_spec hs
  rw [hq] at hq'
  cases hq'
  have hzero := hqueue 0
  rw [if_pos rfl] at hzero
  refine ⟨⟨hframed.threadid.trans h.threadid, fun j hj => ?_, ?_⟩, hzero ▸ hq, by rw [ht']; rfl,
    by rw [ht']; rfl⟩
  · rw [hqueue, if_neg fun e => hj e.symm]
    exact h.idle j hj
  · have hline := h.line
    rw [hq] at hline
    rw [hzero, ht']
    simpa [Server.popItem, Server.modify] using hline

end Lined

end Threads

/-- The machine is at rest and no watcher is going to wake it. -/
def Serving.Shut (s : Serving) : Prop := s.running = false ∧ ∀ watcher, s.world.conn.started watcher = false

theorem Serving.Shut.event {s s' : Serving} {watcher : Watcher} {reads : List ReadResult}
    {writes : List WriteResult} (h : s.Shut) (hs : s.step (.event watcher reads writes) = .ok s') :
    s'.Shut := by
  simp only [Serving.step, h.2 watcher, or_true, if_true] at hs
  cases hs
  exact h

theorem Serving.Shut.turn {s s' : Serving} (h : s.Shut) (hs : s.step .turn = .ok s') : s'.Shut := by
  simp only [Serving.step, h.1] at hs
  cases hs
  exact h

/-- `conn_close` stops both watchers, and the turn is the last one. -/
theorem Serving.shut_of_close {s s' : Serving} (hrun : s.running = true)
    (hstate : s.world.conn.state = .connClosed) (hs : s.step .turn = .ok s') : s'.Shut := by
  simp only [Serving.step, hrun, if_true, World.turn, hstate, Result.ok_bind] at hs
  cases hs
  refine ⟨rfl, fun watcher => ?_⟩
  cases watcher <;> rfl

/-- A connection that is shut stays so, whichever connection is stirred. -/
theorem Server.shut_step {V V' : Server} {a : Stir} {k : ℕ} (h : (V.conn k).Shut) (hs : V.step a = .ok V') :
    (V'.conn k).Shut := by
  have hupdate : ∀ i s, (i = k → s.Shut) → ((V.stirred i s).conn k).Shut := fun i s hi => by
    by_cases hik : i = k
    · subst hik
      simpa [Server.stirred] using hi rfl
    · simpa [Server.stirred, Function.update_of_ne (Ne.symm hik)] using h
  cases a with
  | event i watcher reads writes =>
    obtain ⟨s, hstep, hs⟩ := Result.bind_eq_ok.mp hs
    cases hs
    refine hupdate i s ?_
    rintro rfl
    exact Serving.Shut.event (s := V.serving i) h hstep
  | turn i =>
    obtain ⟨s, hstep, hs⟩ := Result.bind_eq_ok.mp hs
    cases hs
    refine hupdate i s ?_
    rintro rfl
    exact Serving.Shut.turn (s := V.serving i) h hstep
  | clock now =>
    cases hs
    exact h

namespace Process

structure Inv (P : Process) : Prop where
  lined : Threads.Lined P.threads
  owned : Owned P.opened P.holders
  order : P.accepted = P.threads.dispatched.map (·.2.sfd) ++ P.listener.acceptSfd.toList ++ P.lost
  deaf : P.lost ≠ [] → P.listener.sfd ∉ P.opened
  once : P.lost.length ≤ 1
  closed : ∀ k ∈ P.closed, k < P.built ∧ (P.served.conn k).Shut
  reads : ∀ x ∈ P.threads.dispatched, x.2.state = .connRead

variable {P P' : Process} {m : Move}

theorem start_inv {n : ℕ} (hn : 1 ≤ n) (sfd : ℤ) (V : Server) : Inv (start n sfd V) where
  lined := Threads.Lined.threadInit hn
  owned := by
    have hqueue : queued (Threads.threadInit n) = [] := by
      rw [(Threads.Lined.threadInit hn).queued_eq]
      simp [Threads.threadInit, Threads.Server.queue, show 0 < n by omega]
    simp only [Owned, holders, start, live, remaining, hqueue]
    rfl
  order := rfl
  deaf h := absurd rfl h
  once := by simp [start]
  closed k hk := by simp [start] at hk
  reads x hx := by simp [start, Threads.threadInit] at hx

theorem Inv.none_lost (h : Inv P) (hL : P.listener.sfd ∈ P.opened) : P.lost = [] :=
  by_contra fun hlost => h.deaf hlost hL

theorem Inv.accepting (h : Inv P) {sfd : ℤ} (hidle : P.listener.acceptSfd = none)
    (hL : P.listener.sfd ∈ P.opened) (hfresh : sfd ∉ P.opened) : Inv (P.accepting sfd) where
  lined := h.lined
  owned := by
    have hholders : (P.accepting sfd).holders = sfd ::ₘ P.holders := by
      have hlive : (P.accepting sfd).live = P.live := rfl
      have hlisten : (P.accepting sfd).listening = P.listening := rfl
      unfold holders
      rw [hlive, hlisten]
      simp only [Process.accepting, hidle, Option.toList_some, Option.toList_none,
        Multiset.coe_nil, Multiset.coe_singleton, ← Multiset.singleton_add]
      abel
    rw [hholders]
    exact h.owned.take hfresh
  order := by
    have horder := h.order
    rw [hidle, h.none_lost hL] at horder
    simp [Process.accepting, horder, h.none_lost hL]
  deaf hlost := absurd (h.none_lost hL) hlost
  once := h.once
  closed := h.closed
  reads := h.reads

theorem Inv.losing (h : Inv P) {sfd : ℤ} (hidle : P.listener.acceptSfd = none)
    (hL : P.listener.sfd ∈ P.opened) (hfresh : sfd ∉ P.opened) : Inv (P.losing sfd) where
  lined := h.lined
  owned := by
    have hlost := h.none_lost hL
    have hholders : sfd ::ₘ P.holders = P.listener.sfd ::ₘ (P.losing sfd).holders := by
      have hlive : (P.losing sfd).live = P.live := rfl
      unfold holders listening
      rw [hlive]
      simp only [Process.losing, hlost, List.nil_append, reduceCtorEq, if_true, if_false,
        Multiset.coe_nil, Multiset.coe_singleton, ← Multiset.singleton_add]
      abel
    have htaken := h.owned.take hfresh
    rw [hholders] at htaken
    exact htaken.give
  order := by
    have horder := h.order
    rw [hidle, h.none_lost hL] at horder
    simp [Process.losing, horder, h.none_lost hL, hidle]
  deaf _ := by simp [Process.losing]
  once := by simp [Process.losing, h.none_lost hL]
  closed := h.closed
  reads := h.reads

theorem live_congr (hpopped : P'.threads.popped = P.threads.popped) (hclosed : P'.closed = P.closed) :
    P'.live = P.live := by
  unfold live built sfdOf
  rw [hpopped, hclosed]

theorem Inv.pushed (h : Inv P) {sfd : ℤ} {t : Threads.Server} (hsfd : P.listener.acceptSfd = some sfd)
    (ht : P.threads.push sfd .connRead EV_READ = .ok t) : Inv (P.dispatching t) := by
  obtain ⟨hlined, hqueue, hpopped, hdispatched⟩ := h.lined.push ht
  refine ⟨hlined, ?_, ?_, h.deaf, h.once, fun k hk => ?_, fun x hx => ?_⟩
  · have howned := h.owned
    have hlisten : (P.dispatching t).listening = P.listening := rfl
    have hlive : (P.dispatching t).live = P.live := live_congr hpopped rfl
    unfold holders at howned ⊢
    rw [hlisten, hlive]
    simp only [dispatching, hlined.queued_eq, h.lined.queued_eq, hqueue, hsfd, Option.toList_some,
      Option.toList_none, List.map_append, List.map_cons, List.map_nil, ← Multiset.coe_add,
      Multiset.coe_nil, Multiset.coe_singleton] at howned ⊢
    rw [add_zero]
    convert howned using 1
    abel
  · have horder := h.order
    rw [hsfd] at horder
    simpa [dispatching, hdispatched] using horder
  · obtain ⟨hlt, hshut⟩ := h.closed k hk
    exact ⟨by simpa only [built, dispatching, hpopped] using hlt, hshut⟩
  · simp only [dispatching, hdispatched] at hx
    rcases List.mem_append.mp hx with hx | hx
    · exact h.reads x hx
    · rw [List.mem_singleton.mp hx]

/-- The connection that is built is one more to hold a descriptor. -/
theorem live_popped {i : ℕ} {item : Threads.Item}
    (hpopped : P'.threads.popped = P.threads.popped ++ [(i, item)])
    (hclosed : P'.closed = P.closed) (hlt : ∀ k ∈ P.closed, k < P.built) : P'.live = item.sfd ::ₘ P.live := by
  have hbuilt : P'.built = P.built + 1 := by simp [built, hpopped]
  have hnew : P'.sfdOf P.built = item.sfd := by simp [sfdOf, hpopped, built]
  unfold live
  rw [hbuilt, hclosed, ← hnew]
  refine remaining_succ hlt fun k hk => ?_
  unfold sfdOf
  rw [hpopped, List.getElem?_append_left hk]

theorem Inv.popped (h : Inv P) {i : ℕ} {item : Threads.Item} {rest : List Threads.Item} {t : Threads.Server}
    (hq : P.threads.queue i = item :: rest) (ht : P.threads.pop i = .ok t) (state : ConnStates) :
    Inv (P.building t state) := by
  obtain ⟨hlined, hqueue, hpopped, hdispatched⟩ := h.lined.pop hq ht
  have hlt : ∀ k ∈ P.closed, k < P.built := fun k hk => (h.closed k hk).1
  refine ⟨hlined, ?_, ?_, h.deaf, h.once, fun k hk => ?_, by simpa only [building, hdispatched] using h.reads⟩
  · have howned := h.owned
    have hlisten : (P.building t state).listening = P.listening := rfl
    have hlive : (P.building t state).live = item.sfd ::ₘ P.live := live_popped hpopped rfl hlt
    unfold holders at howned ⊢
    rw [hlisten, hlive]
    simp only [building, hlined.queued_eq, h.lined.queued_eq, hqueue, List.map_cons, ← Multiset.cons_coe,
      ← Multiset.singleton_add] at howned ⊢
    convert howned using 1
    abel
  · simp only [building, hdispatched]
    exact h.order
  · refine ⟨?_, ?_⟩
    · simp only [built, building, hpopped, List.length_append]
      exact Nat.lt_succ_of_lt (hlt k hk)
    · simpa [building, Function.update_of_ne (hlt k hk).ne] using (h.closed k hk).2

/-- A turn closes only a connection that is not shut. -/
theorem shut_spec {a : Stir} {k : ℕ} (h : P.shut a = some k) :
    a = .turn k ∧ (P.served.conn k).running = true ∧ (P.served.conn k).world.conn.state = .connClosed := by
  cases a with
  | turn i =>
    simp only [shut] at h
    split at h
    · rename_i hi
      cases h
      exact ⟨rfl, hi⟩
    · cases h
  | _ => cases h

theorem Inv.turned (h : Inv P) {a : Stir} {V : Server} (hbuilt : ∀ k ∈ a.conn, k < P.built)
    (hV : P.served.step a = .ok V) : Inv (P.stirring a V) := by
  have hkept : ∀ k ∈ P.closed, k < P.built ∧ (V.conn k).Shut := fun k hk =>
    ⟨(h.closed k hk).1, Server.shut_step (h.closed k hk).2 hV⟩
  unfold stirring
  cases hshut : P.shut a with
  | none => exact ⟨h.lined, h.owned, h.order, h.deaf, h.once, hkept, h.reads⟩
  | some k =>
    obtain ⟨rfl, hrun, hstate⟩ := shut_spec hshut
    have hk : k < P.built := hbuilt k rfl
    have hopen : k ∉ P.closed := fun hc => by
      rw [(h.closed k hc).2.1] at hrun
      cases hrun
    refine ⟨h.lined, ?_, h.order, fun hlost hL => h.deaf hlost (Finset.mem_of_mem_erase hL), h.once,
      fun j hj => ?_, h.reads⟩
    · have howned := h.owned
      have hlive : P.live = P.sfdOf k ::ₘ remaining P.built (insert k P.closed) P.sfdOf :=
        remaining_insert hk hopen
      unfold holders at howned
      rw [hlive, Multiset.add_cons, Multiset.cons_add] at howned
      exact howned.give
    · rcases Finset.mem_insert.mp hj with rfl | hj
      · obtain ⟨s, hstep, hs⟩ := Result.bind_eq_ok.mp hV
        cases hs
        have hlast := Serving.shut_of_close (s := P.served.serving j) hrun hstate hstep
        exact ⟨hk, by simpa [Server.stirred] using hlast⟩
      · exact hkept j hj

theorem inv_step (h : Inv P) (hs : P.step m = .ok P') : Inv P' := by
  cases step_spec hs with
  | wake => exact ⟨h.lined, h.owned, h.order, h.deaf, h.once, h.closed, h.reads⟩
  | refused => exact ⟨h.lined, h.owned, h.order, h.deaf, h.once, h.closed, h.reads⟩
  | accepted hidle hlisten hfresh => exact h.accepting hidle hlisten hfresh
  | lost hidle hlisten hfresh => exact h.losing hidle hlisten hfresh
  | pushed hsfd ht => exact h.pushed hsfd ht
  | notified ht =>
    obtain ⟨-, -, p, -, -, -, rfl⟩ := Threads.Server.notify_spec ht
    exact ⟨h.lined.of_same ⟨rfl, fun _ => rfl⟩ (fun _ => rfl) rfl rfl, h.owned, h.order, h.deaf,
      h.once, h.closed, h.reads⟩
  | read ht =>
    obtain ⟨-, p, buf, rest, -, -, -, -, ht', hframed, hqueue, -⟩ := Threads.Server.read_spec ht
    have hlined := h.lined.of_same hframed hqueue (by rw [ht']; rfl) (by rw [ht']; rfl)
    refine ⟨hlined, ?_, by rw [ht']; exact h.order, h.deaf, h.once, by rw [ht']; exact h.closed,
      by rw [ht']; exact h.reads⟩
    have howned := h.owned
    unfold holders at howned ⊢
    rw [h.lined.queued_eq] at howned
    rw [hlined.queued_eq, hqueue, ht']
    exact howned
  | popped hq ht => exact h.popped hq ht _
  | turned hbuilt hV => exact h.turned hbuilt hV

/-- The descriptors of the process, in every state of it. Each one that is open is held by one party and
nobody else; what `accept` returned is handed over in its order, and the k-th connection is
built for the k-th of it, until one is lost: then the listener is deaf for good. A connection
that is not closed has its own open descriptor, and one that is never moves again. -/
structure Accounted (P : Process) : Prop where
  owned : Owned P.opened P.holders
  order : P.accepted = P.threads.dispatched.map (·.2.sfd) ++ P.listener.acceptSfd.toList ++ P.lost
  served : P.threads.popped.map Prod.snd <+: P.threads.dispatched.map Prod.snd
  deaf : P.listener.sfd ∈ P.opened ↔ P.lost = []
  once : P.lost.length ≤ 1
  own : ∀ k < P.built, k ∉ P.closed → P.sfdOf k ∈ P.opened ∧
    ∀ j < P.built, j ∉ P.closed → P.sfdOf j = P.sfdOf k → j = k
  shut : ∀ k ∈ P.closed, k < P.built ∧ (P.served.conn k).Shut

theorem Inv.accounted (h : Inv P) : P.Accounted where
  owned := h.owned
  order := h.order
  served := ⟨P.threads.queue 0, h.lined.line.symm⟩
  deaf := by
    refine ⟨h.none_lost, fun hlost => h.owned.mem_iff.mpr ?_⟩
    simp [holders, listening, hlost]
  once := h.once
  own k hk hopen := by
    have hmem : P.sfdOf k ∈ P.live := mem_remaining hk hopen
    have hnodup : P.live.Nodup := by
      have hall := h.owned.nodup
      exact (Multiset.nodup_add.mp (Multiset.nodup_add.mp hall).1).2.1
    refine ⟨h.owned.mem_iff.mpr ?_, fun j hj hjopen e => eq_of_remaining hnodup hj hjopen hk hopen e⟩
    simp [holders, hmem]
  shut := h.closed

/-- The byte-level server `V` has the connections that were built, and the others as the
constructor is going to leave them. -/
structure Shows (P : Process) (V : Server) : Prop where
  cache : V.cache = P.served.cache
  conns : ∀ k < P.built, V.conn k = P.served.conn k
  coming : ∀ k, P.built ≤ k → V.conn k = (P.served.conn k).construct .connRead

/-- A stir of a connection that was built is one of the byte-level server. -/
theorem Shows.stirred {V W : Server} {a : Stir} (h : P.Shows V) (hbuilt : ∀ k ∈ a.conn, k < P.built)
    (hW : P.served.step a = .ok W) : ∃ V', V.step a = .ok V' ∧ (P.stirring a W).Shows V' := by
  have hserving : ∀ k < P.built, V.serving k = P.served.serving k := fun k hk => by
    unfold Server.serving
    rw [h.cache, h.conns k hk]
  have hupdate : ∀ (i : ℕ) (s : Serving), i < P.built → W = P.served.stirred i s →
      (P.stirring a W).Shows (V.stirred i s) := by
    rintro i s hi rfl
    refine ⟨rfl, fun k hk => ?_, fun k hk => ?_⟩
    · by_cases hki : k = i
      · subst hki
        simp [stirring, Server.stirred]
      · simpa [stirring, Server.stirred, Function.update_of_ne hki] using h.conns k hk
    · have hki : k ≠ i := (lt_of_lt_of_le hi hk).ne'
      simpa [stirring, Server.stirred, Function.update_of_ne hki] using h.coming k hk
  cases a with
  | event i watcher reads writes =>
    obtain ⟨s, hstep, hs⟩ := Result.bind_eq_ok.mp hW
    cases hs
    have hi : i < P.built := hbuilt i rfl
    exact ⟨V.stirred i s, by simp [Server.step, hserving i hi, hstep, pure, Except.pure], hupdate i s hi rfl⟩
  | turn i =>
    obtain ⟨s, hstep, hs⟩ := Result.bind_eq_ok.mp hW
    cases hs
    have hi : i < P.built := hbuilt i rfl
    exact ⟨V.stirred i s, by simp [Server.step, hserving i hi, hstep, pure, Except.pure], hupdate i s hi rfl⟩
  | clock now =>
    cases hW
    exact ⟨_, rfl, by simp [stirring, h.cache], h.conns, h.coming⟩

/-- The steps of the process show as steps of the byte-level server, or not at all. -/
theorem shows_step {V : Server} (hinv : Inv P) (h : P.Shows V) (hs : P.step m = .ok P') :
    ∃ as V', run Server.step V as = .ok V' ∧ P'.Shows V' := by
  have hsame : ∀ {P' : Process}, P'.built = P.built → P'.served = P.served →
    P'.Shows V := fun hb hserved => by
    constructor
    · rw [hserved]
      exact h.cache
    · rw [hb, hserved]
      exact h.conns
    · rw [hb, hserved]
      exact h.coming
  cases step_spec hs with
  | wake => exact ⟨[], V, rfl, hsame rfl rfl⟩
  | refused => exact ⟨[], V, rfl, hsame rfl rfl⟩
  | accepted => exact ⟨[], V, rfl, hsame rfl rfl⟩
  | lost => exact ⟨[], V, rfl, hsame rfl rfl⟩
  | pushed hsfd ht =>
    obtain ⟨-, -, hpopped, -⟩ := hinv.lined.push ht
    exact ⟨[], V, rfl, hsame (congrArg List.length hpopped) rfl⟩
  | notified ht =>
    obtain ⟨-, -, p, -, -, -, rfl⟩ := Threads.Server.notify_spec ht
    exact ⟨[], V, rfl, hsame rfl rfl⟩
  | read ht =>
    obtain ⟨-, p, buf, rest, -, -, -, -, rfl, -⟩ := Threads.Server.read_spec ht
    exact ⟨[], V, rfl, hsame rfl rfl⟩
  | @popped i item rest t hq ht =>
    obtain ⟨-, hqueue, hpopped, -⟩ := hinv.lined.pop hq ht
    have hitem : item ∈ P.threads.dispatched.map Prod.snd := by
      rw [hinv.lined.line, hqueue]
      simp
    obtain ⟨x, hx, rfl⟩ := List.mem_map.mp hitem
    have hb : (P.building t x.2.state).built = P.built + 1 := by simp [built, building, hpopped]
    refine ⟨[], V, rfl, h.cache, fun k hk => ?_, fun k hk => ?_⟩
    · rw [hb] at hk
      by_cases hkb : k = P.built
      · subst hkb
        simpa [building, hinv.reads x hx] using h.coming P.built le_rfl
      · simpa [building, Function.update_of_ne hkb] using h.conns k (by omega)
    · rw [hb] at hk
      have hkb : k ≠ P.built := by omega
      simpa [building, Function.update_of_ne hkb] using h.coming k (by omega)
  | turned hbuilt hV =>
    obtain ⟨V', hV', hshows⟩ := h.stirred hbuilt hV
    exact ⟨[_], V', (run_cons_ok Server.step hV' []).trans rfl, hshows⟩

/-- In every run of the process its descriptors are accounted for, and what its connections do is a
run of the byte-level server. -/
theorem run_accounted {n : ℕ} (hn : 1 ≤ n) (sfd : ℤ) (V : Server) {ms : List Move}
    (hrun : run step (start n sfd V) ms = .ok P) :
    P.Accounted ∧ ∃ as V', run Server.step ⟨V.cache, fun k => (V.conn k).construct .connRead⟩ as = .ok V' ∧
      P.Shows V' := by
  have hkeep : Inv P ∧ ∃ as V', run Server.step
    ⟨V.cache, fun k => (V.conn k).construct .connRead⟩ as = .ok V' ∧
      P.Shows V' := by
    refine invariant_run (I := fun Q => Inv Q ∧ ∃ as V',
      run Server.step ⟨V.cache, fun k => (V.conn k).construct .connRead⟩ as = .ok V' ∧ Q.Shows V')
      (fun Q m Q' hQ hstep => ?_) ⟨start_inv hn sfd V, [], _, rfl, rfl, ?_, fun _ _ => rfl⟩ hrun
    · obtain ⟨hinv, as, V', has, hshows⟩ := hQ
      obtain ⟨bs, V'', hbs, hshows'⟩ := shows_step hinv hshows hstep
      exact ⟨inv_step hinv hstep, as ++ bs, V'', (run_append_eq_ok Server.step).mpr ⟨V', has, hbs⟩, hshows'⟩
    · simp [start, built, Threads.threadInit]
  exact ⟨hkeep.1.accounted, hkeep.2⟩

/-- A connection comes, is built by the one worker, and is closed by its client; the next one
gets its descriptor, and the one after that is lost. -/
def comeAndGo : List Move :=
  [.wake, .accept (.made 7) 2 0, .push, .notify true, .read 0, .pop 0, .stir (.event 0 .read [.failed] []),
    .stir (.turn 0), .stir (.turn 0), .wake, .accept (.made 7) 2 0, .push, .notify true, .wake,
    .accept (.made 8) 2 (-1), .accept (.failed .other) 0 0]

theorem run_accounted_comeAndGo : ∃ s P, Cache.init 1 Service.smallSettings (fun _ => true) 0 = some s ∧
    run step (start 1 3 (Server.start s fun _ => Serving.fresh s)) comeAndGo = .ok P ∧ P.Accounted ∧
    P.accepted = [7, 7, 8] ∧ P.lost = [8] ∧ P.closed = {0} ∧ P.opened = {7, 8} := by
  have htrial : (Cache.init 1 Service.smallSettings (fun _ => true) 0).any (fun s =>
      (run step (start 1 3 (Server.start s fun _ => Serving.fresh s)) comeAndGo).toOption.any fun P =>
        decide (P.accepted = [7, 7, 8] ∧ P.lost = [8] ∧ P.closed = {0} ∧ P.opened = {7, 8})) = true := by
    decide +kernel
  obtain ⟨s, hinit, hs⟩ := Service.exists_init htrial
  obtain ⟨P, hP, hend⟩ := (Option.any_eq_true _ _).mp hs
  have hrun : run step (start 1 3 (Server.start s fun _ => Serving.fresh s)) comeAndGo = .ok P := by
    cases hr : run step (start 1 3 (Server.start s fun _ => Serving.fresh s)) comeAndGo with
    | error e => rw [hr] at hP; cases hP
    | ok Q => rw [hr] at hP; cases hP; rfl
  exact ⟨s, P, hinit, hrun, (run_accounted (by decide) 3 _ hrun).1, of_decide_eq_true hend⟩

end Process

end MiniMemcached
