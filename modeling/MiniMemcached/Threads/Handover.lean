import MiniMemcached.Runs.Steps
import MiniMemcached.Protocol.Connection

/-! Handing a connection to a worker thread. `dispatch_conn_new` pushes an item on
the queue of the worker it chose and then writes one byte to that worker's pipe; a
worker's event loop reads a byte from its pipe and then waits for an item in its
own queue. `thread_init` makes a single pipe and gives its two ends to every
worker, so which worker reads a byte is up to the order of the event loops. -/

namespace MiniMemcached.Threads

open Runs

/-- An element of a worker's queue. The base loop is named by its worker. -/
structure Item where
  baseLoop : ℕ
  sfd : ℤ
  state : ConnStates
  flag : ℤ
  deriving DecidableEq, Repr

/-- A descriptor of a pipe. Pipes are numbered by the calls of `pipe`. -/
inductive Fd
  | readEnd (pipe : ℕ)
  | writeEnd (pipe : ℕ)
  deriving DecidableEq, Repr

/-- A worker and its place in `thread_libev_process`: `notified` is set between the
read of a byte and the pop. -/
structure WorkThread where
  fds : Fd × Fd
  itemQueue : List Item := []
  notified : Bool := false
  deriving DecidableEq, Repr

/-- The threads of the server. `chosen` is the worker whose item is pushed and not
yet announced; `dispatched` and `popped` keep the history with the workers' numbers. -/
structure Server where
  workthreads : List WorkThread
  lastThreadid : ℤ
  numThreads : ℤ
  pipes : ℕ → List UInt8
  chosen : Option ℕ
  dispatched : List (ℕ × Item)
  popped : List (ℕ × Item)

/-- What keeps a thread from taking a step. -/
inductive Stuck
  | badIndex
  | badFd
  | notNext
  | emptyPipe
  | emptyQueue
  deriving DecidableEq, Repr

/-- Start the workers: one pipe, made for the listener, serves them all. -/
def threadInit (numWorkerThread : ℕ) : Server where
  workthreads := List.replicate numWorkerThread { fds := (.readEnd 0, .writeEnd 0) }
  lastThreadid := -1
  numThreads := numWorkerThread
  pipes _ := []
  chosen := none
  dispatched := []
  popped := []

namespace Server

/-- The worker number that `dispatch_conn_new` computes. -/
def threadid (t : Server) : ℤ := (t.lastThreadid + 1).tmod t.numThreads

/-- The letter of a notification. -/
def letter : UInt8 := 99

def modify (t : Server) (i : ℕ) (f : WorkThread → WorkThread) : Server :=
  { t with workthreads := t.workthreads.modify i f }

def pushItem (t : Server) (i : ℕ) (item : Item) : Server :=
  { t.modify i fun w => { w with itemQueue := w.itemQueue ++ [item] } with
    chosen := some i
    dispatched := t.dispatched ++ [(i, item)] }

/-- `dispatch_conn_new` up to the push. -/
def push (t : Server) (sfd : ℤ) (newState : ConnStates) (eventFlag : ℤ) : Except Stuck Server :=
  if t.chosen.isSome then .error .notNext
  else if t.threadid < 0 ∨ t.workthreads.length ≤ t.threadid.toNat then .error .badIndex
  else .ok (t.pushItem t.threadid.toNat ⟨t.threadid.toNat, sfd, newState, eventFlag⟩)

def writePipe (t : Server) (p : ℕ) (written : Bool) : Server :=
  { t with
    pipes := fun q => if q = p ∧ written = true then t.pipes q ++ [letter] else t.pipes q
    chosen := none }

/-- The rest of `dispatch_conn_new`: the write to `fds[1]`, which may fail. -/
def notify (t : Server) (written : Bool) : Except Stuck Server :=
  match t.chosen.bind fun i => t.workthreads[i]? with
  | none => .error .notNext
  | some w =>
    match w.fds.2 with
    | .readEnd _ => .error .badFd
    | .writeEnd p => .ok (t.writePipe p written)

def readPipe (t : Server) (i p : ℕ) (buf : UInt8) (rest : List UInt8) : Server :=
  { t.modify i fun w => { w with notified := decide (buf = letter) } with
    pipes := fun q => if q = p then rest else t.pipes q }

/-- `thread_libev_process` of worker `i` up to the pop: a byte is read from `fds[0]`. -/
def read (t : Server) (i : ℕ) : Except Stuck Server :=
  match t.workthreads[i]? with
  | none => .error .badIndex
  | some w =>
    if w.notified then .error .notNext
    else
      match w.fds.1 with
      | .writeEnd _ => .error .badFd
      | .readEnd p =>
        match t.pipes p with
        | [] => .error .emptyPipe
        | buf :: rest => .ok (t.readPipe i p buf rest)

def popItem (t : Server) (i : ℕ) (item : Item) (rest : List Item) : Server :=
  { t.modify i fun w => { w with itemQueue := rest, notified := false } with
    popped := t.popped ++ [(i, item)] }

/-- `wait_and_pop` of worker `i`, which waits while its queue is empty. -/
def pop (t : Server) (i : ℕ) : Except Stuck Server :=
  match t.workthreads[i]? with
  | none => .error .badIndex
  | some w =>
    if w.notified then
      match w.itemQueue with
      | [] => .error .emptyQueue
      | item :: rest => .ok (t.popItem i item rest)
    else .error .notNext

end Server

/-- A step of the listener or of a worker. -/
inductive Move
  | push (sfd : ℤ) (newState : ConnStates) (eventFlag : ℤ)
  | notify (written : Bool)
  | read (worker : ℕ)
  | pop (worker : ℕ)
  deriving DecidableEq, Repr

def step (t : Server) : Move → Except Stuck Server
  | .push sfd newState eventFlag => t.push sfd newState eventFlag
  | .notify written => t.notify written
  | .read i => t.read i
  | .pop i => t.pop i

namespace Server

/-- The queue of worker `i`. -/
def queue (t : Server) (i : ℕ) : List Item := (t.workthreads[i]?.map (·.itemQueue)).getD []

/-- Worker `i` has read a byte and is to pop. -/
def notified (t : Server) (i : ℕ) : Bool := (t.workthreads[i]?.map (·.notified)).getD false

end Server

/-- The part of a history that concerns worker `i`. -/
def ofWorker (i : ℕ) (h : List (ℕ × Item)) : List Item := (h.filter (·.1 = i)).map (·.2)

/-- No worker waits for another's item, and what a worker has popped is what was
dispatched to it, each once and in order, up to what is still queued. -/
structure HandedOver (t : Server) : Prop where
  supplied : ∀ i, t.notified i = true → t.queue i ≠ []
  inOrder : ∀ i, ofWorker i t.popped <+: ofWorker i t.dispatched

namespace Server

variable {t t' : Server}

theorem queue_of_getElem? {i : ℕ} {w : WorkThread} (h : t.workthreads[i]? = some w) :
    t.queue i = w.itemQueue := by simp [queue, h]

theorem notified_of_getElem? {i : ℕ} {w : WorkThread} (h : t.workthreads[i]? = some w) :
    t.notified i = w.notified := by simp [notified, h]

/-- What no step changes: the computation of the worker number and the descriptors. -/
structure Framed (t t' : Server) : Prop where
  threadid : t'.threadid = t.threadid
  fds : ∀ i : ℕ, (t'.workthreads[i]?).map (·.fds) = (t.workthreads[i]?).map (·.fds)

theorem framed_modify {f : WorkThread → WorkThread} {i : ℕ}
    (hw : t'.workthreads = t.workthreads.modify i f)
    (hid : t'.lastThreadid = t.lastThreadid ∧ t'.numThreads = t.numThreads)
    (hf : ∀ w, (f w).fds = w.fds) : Framed t t' where
  threadid := by simp [Server.threadid, hid]
  fds j := by
    rw [hw, List.getElem?_modify, Option.map_eq_map, Option.map_map]
    congr 1
    funext w
    simp only [Function.comp_apply]
    split <;> simp [hf]

/-- What a push does. -/
theorem push_spec {sfd eventFlag : ℤ} {newState : ConnStates}
    (h : t.push sfd newState eventFlag = .ok t') :
    ∃ i : ℕ, t.threadid = i ∧ t.chosen = none ∧ t' = t.pushItem i ⟨i, sfd, newState, eventFlag⟩ ∧
      Framed t t' ∧ (∀ j, t'.notified j = t.notified j) ∧
      ∀ j, t'.queue j = t.queue j ++ if i = j then [⟨i, sfd, newState, eventFlag⟩] else [] := by
  unfold push at h
  split at h
  · cases h
  rename_i hc
  split at h
  · cases h
  rename_i hid
  cases h
  have hlt : t.threadid.toNat < t.workthreads.length := by omega
  refine ⟨t.threadid.toNat, by omega, by simpa using hc, rfl,
    framed_modify rfl ⟨rfl, rfl⟩ fun _ => rfl, fun j => ?_, fun j => ?_⟩
  · simp only [notified, pushItem, modify, List.getElem?_modify, Option.map_eq_map, Option.map_map]
    congr 2
    funext w
    simp only [Function.comp_apply]
    split <;> rfl
  · simp only [queue, pushItem, modify, List.getElem?_modify]
    by_cases hj : t.threadid.toNat = j
    · subst hj
      simp [List.getElem?_eq_getElem hlt]
    · simp [hj]

/-- What the notification does, written or not. -/
theorem notify_spec {written : Bool} (h : t.notify written = .ok t') :
    ∃ i w p, t.chosen = some i ∧ t.workthreads[i]? = some w ∧ w.fds.2 = .writeEnd p ∧
      t' = t.writePipe p written := by
  unfold notify at h
  split at h
  · cases h
  rename_i w hw
  obtain ⟨i, hi, hw⟩ := Option.bind_eq_some_iff.mp hw
  split at h
  · cases h
  rename_i p hp
  cases h
  exact ⟨i, w, p, hi, hw, hp, rfl⟩

/-- What a worker's read does. -/
theorem read_spec {i : ℕ} (h : t.read i = .ok t') :
    ∃ w p buf rest, t.workthreads[i]? = some w ∧ w.fds.1 = .readEnd p ∧ t.pipes p = buf :: rest ∧
      t.notified i = false ∧ t' = t.readPipe i p buf rest ∧ Framed t t' ∧
      (∀ j, t'.queue j = t.queue j) ∧
      ∀ j, t'.notified j = if i = j then decide (buf = letter) else t.notified j := by
  unfold read at h
  split at h
  · cases h
  rename_i w hw
  split at h
  · cases h
  rename_i hn
  split at h
  · cases h
  rename_i p hp
  split at h
  · cases h
  rename_i buf rest hbuf
  cases h
  refine ⟨w, p, buf, rest, hw, hp, hbuf, by simpa [notified_of_getElem? hw] using hn, rfl,
    framed_modify rfl ⟨rfl, rfl⟩ fun _ => rfl, fun j => ?_, fun j => ?_⟩
  · simp only [queue, readPipe, modify, List.getElem?_modify, Option.map_eq_map, Option.map_map]
    congr 2
    funext w
    simp only [Function.comp_apply]
    split <;> rfl
  · simp only [notified, readPipe, modify, List.getElem?_modify]
    by_cases hj : i = j
    · subst hj
      simp [hw]
    · simp [hj]

/-- What a worker's pop does. -/
theorem pop_spec {i : ℕ} (h : t.pop i = .ok t') :
    ∃ item rest, t.queue i = item :: rest ∧ t.notified i = true ∧ t' = t.popItem i item rest ∧
      Framed t t' ∧ (∀ j, t'.queue j = if i = j then rest else t.queue j) ∧
      ∀ j, t'.notified j = if i = j then false else t.notified j := by
  unfold pop at h
  split at h
  · cases h
  rename_i w hw
  split at h
  · rename_i hn
    split at h
    · cases h
    rename_i item rest hq
    cases h
    refine ⟨item, rest, (queue_of_getElem? hw).trans hq, (notified_of_getElem? hw).trans hn, rfl,
      framed_modify rfl ⟨rfl, rfl⟩ fun _ => rfl, fun j => ?_, fun j => ?_⟩
    · simp only [queue, popItem, modify, List.getElem?_modify]
      by_cases hj : i = j
      · subst hj
        simp [hw]
      · simp [hj]
    · simp only [notified, popItem, modify, List.getElem?_modify]
      by_cases hj : i = j
      · subst hj
        simp [hw]
      · simp [hj]
  · cases h

end Server

theorem ofWorker_snoc (i j : ℕ) (h : List (ℕ × Item)) (item : Item) :
    ofWorker i (h ++ [(j, item)]) = ofWorker i h ++ if j = i then [item] else [] := by
  unfold ofWorker
  by_cases hij : j = i <;> simp [hij]

/-- Only worker 0 is ever chosen, every worker reads the one pipe, and each byte in
it, or read by worker 0 and not yet spent, has its item in the queue of worker 0. -/
structure Inv (t : Server) : Prop where
  threadid : t.threadid = 0
  wired : ∀ (i : ℕ), ∀ d ∈ (t.workthreads[i]?).map (·.fds), d = (.readEnd 0, .writeEnd 0)
  letters : ∀ b ∈ t.pipes 0, b = Server.letter
  first : ∀ i ∈ t.chosen, i = 0
  idle : ∀ i, i ≠ 0 → t.queue i = [] ∧ t.notified i = false
  backed : (t.pipes 0).length + t.chosen.toList.length + (t.notified 0).toNat ≤ (t.queue 0).length
  history : ∀ i, ofWorker i t.dispatched = ofWorker i t.popped ++ t.queue i

theorem threadInit_inv {n : ℕ} (hn : 1 ≤ n) : Inv (threadInit n) where
  threadid := by simp [threadInit, Server.threadid]
  wired i d hd := by
    simp only [threadInit, List.getElem?_replicate] at hd
    split at hd
    · cases hd; rfl
    · cases hd
  letters b hb := by simp [threadInit] at hb
  first i hi := by simp [threadInit] at hi
  idle i _ := by
    simp only [Server.queue, Server.notified, threadInit, List.getElem?_replicate]
    by_cases hin : i < n <;> simp [hin]
  backed := by simp [Server.queue, Server.notified, threadInit, show 0 < n by omega]
  history i := by
    simp only [Server.queue, threadInit, List.getElem?_replicate]
    by_cases hin : i < n <;> simp [hin]

namespace Inv

variable {t t' : Server}

theorem handedOver (h : Inv t) : HandedOver t where
  supplied i hi := by
    by_cases h0 : i = 0
    · subst h0
      have hb := h.backed
      rw [hi] at hb
      intro hq
      rw [hq] at hb
      simp at hb
    · rw [(h.idle i h0).2] at hi
      cases hi
  inOrder i := ⟨t.queue i, (h.history i).symm⟩

theorem wired_of (h : Inv t) (hf : Server.Framed t t') (i : ℕ) :
    ∀ d ∈ (t'.workthreads[i]?).map (·.fds), d = (.readEnd 0, .writeEnd 0) := by
  rw [hf.fds i]
  exact h.wired i

theorem fds_eq (h : Inv t) {i : ℕ} {w : WorkThread} (hw : t.workthreads[i]? = some w) :
    w.fds = (.readEnd 0, .writeEnd 0) := h.wired i _ (by rw [hw]; rfl)

theorem push (h : Inv t) {sfd eventFlag : ℤ} {newState : ConnStates}
    (hs : t.push sfd newState eventFlag = .ok t') : Inv t' := by
  obtain ⟨i, hi, hnone, ht', hf, hn, hq⟩ := Server.push_spec hs
  have hi0 : i = 0 := by have := h.threadid; omega
  subst hi0
  have hpipes : t'.pipes = t.pipes := by rw [ht']; rfl
  have hchosen : t'.chosen = some 0 := by rw [ht']; rfl
  have hb := h.backed
  refine ⟨hf.threadid.trans h.threadid, h.wired_of hf, ?_, ?_, fun j hj => ?_, ?_, fun j => ?_⟩
  · rw [hpipes]; exact h.letters
  · intro j hj; rw [hchosen] at hj; cases hj; rfl
  · rw [hq, hn, if_neg fun e => hj e.symm, List.append_nil]
    exact h.idle j hj
  · rw [hpipes, hchosen, hn, hq, if_pos rfl, List.length_append]
    rw [hnone] at hb
    simp only [Option.toList, List.length_nil, List.length_cons] at hb ⊢
    omega
  · have hd : t'.dispatched = t.dispatched ++ [(0, ⟨0, sfd, newState, eventFlag⟩)] := by rw [ht']; rfl
    have hp : t'.popped = t.popped := by rw [ht']; rfl
    rw [hd, hp, hq, ofWorker_snoc, h.history, List.append_assoc]

theorem notify (h : Inv t) {written : Bool} (hs : t.notify written = .ok t') : Inv t' := by
  obtain ⟨i, w, p, hi, hw, hp, rfl⟩ := Server.notify_spec hs
  rw [h.fds_eq hw] at hp
  cases hp
  have hb := h.backed
  rw [hi] at hb
  refine ⟨h.threadid, h.wired, ?_, fun j hj => (by cases hj), h.idle, ?_, h.history⟩
  · intro b hb
    simp only [Server.writePipe] at hb
    split at hb
    · rcases List.mem_append.mp hb with hb | hb
      · exact h.letters b hb
      · exact List.mem_singleton.mp hb
    · exact h.letters b hb
  · show ((t.writePipe 0 written).pipes 0).length + 0 + (t.notified 0).toNat ≤ (t.queue 0).length
    simp only [Option.toList, List.length_cons, List.length_nil] at hb
    simp only [Server.writePipe]
    split
    · rw [List.length_append, List.length_singleton]; omega
    · omega

/-- A byte read by worker 0 has its item in the queue of worker 0. -/
theorem read (h : Inv t) (hs : t.read 0 = .ok t') : Inv t' := by
  obtain ⟨w, p, buf, rest, hw, hp, hbuf, hidle, ht', hf, hq, hn⟩ := Server.read_spec hs
  rw [h.fds_eq hw] at hp
  cases hp
  have hb := h.backed
  have hpipes : t'.pipes 0 = rest := by rw [ht']; simp [Server.readPipe]
  have hchosen : t'.chosen = t.chosen := by rw [ht']; rfl
  refine ⟨hf.threadid.trans h.threadid, h.wired_of hf, ?_, ?_, fun j hj => ?_, ?_, fun j => ?_⟩
  · intro b hb
    rw [hpipes] at hb
    exact h.letters b (by rw [hbuf]; exact List.mem_cons_of_mem _ hb)
  · rw [hchosen]; exact h.first
  · rw [hq, hn, if_neg fun e => hj e.symm]
    exact h.idle j hj
  · rw [hpipes, hchosen, hq, hn, if_pos rfl]
    rw [hbuf, hidle, List.length_cons] at hb
    have hle : (decide (buf = Server.letter)).toNat ≤ 1 := Bool.toNat_le _
    have hz : false.toNat = 0 := rfl
    omega
  · have hd : t'.dispatched = t.dispatched := by rw [ht']; rfl
    have hp : t'.popped = t.popped := by rw [ht']; rfl
    rw [hd, hp, hq, h.history]

theorem pop (h : Inv t) {i : ℕ} (hs : t.pop i = .ok t') : Inv t' := by
  obtain ⟨item, rest, hitem, hready, ht', hf, hq, hn⟩ := Server.pop_spec hs
  have hi0 : i = 0 := by
    by_contra hne
    rw [(h.idle i hne).2] at hready
    cases hready
  subst hi0
  have hb := h.backed
  have hpipes : t'.pipes = t.pipes := by rw [ht']; rfl
  have hchosen : t'.chosen = t.chosen := by rw [ht']; rfl
  refine ⟨hf.threadid.trans h.threadid, h.wired_of hf, ?_, ?_, fun j hj => ?_, ?_, fun j => ?_⟩
  · rw [hpipes]; exact h.letters
  · rw [hchosen]; exact h.first
  · rw [hq, hn, if_neg fun e => hj e.symm, if_neg fun e => hj e.symm]
    exact h.idle j hj
  · rw [hpipes, hchosen, hq, hn, if_pos rfl, if_pos rfl]
    rw [hitem, hready, List.length_cons] at hb
    have ht : true.toNat = 1 := rfl
    have hz : false.toNat = 0 := rfl
    omega
  · have hd : t'.dispatched = t.dispatched := by rw [ht']; rfl
    have hp : t'.popped = t.popped ++ [(0, item)] := by rw [ht']; rfl
    rw [hd, hp, hq, ofWorker_snoc, h.history, List.append_assoc]
    by_cases hj : 0 = j
    · subst hj; simp [hitem]
    · simp [hj]

theorem step (h : Inv t) {a : Move} (ha : ∀ i, a = .read i → i = 0)
    (hs : Threads.step t a = .ok t') : Inv t' := by
  cases a with
  | push sfd newState eventFlag => exact h.push hs
  | notify written => exact h.notify hs
  | read i =>
    obtain rfl := ha i rfl
    exact h.read hs
  | pop i => exact h.pop hs

/-- A worker other than the first that reads a byte waits for an item that is not its own. -/
theorem not_supplied (h : Inv t) {i : ℕ} (hi : i ≠ 0) (hs : t.read i = .ok t') :
    ¬HandedOver t' := by
  obtain ⟨w, p, buf, rest, hw, hp, hbuf, -, -, -, hq, hn⟩ := Server.read_spec hs
  rw [h.fds_eq hw] at hp
  cases hp
  intro hover
  have hbuf : buf = Server.letter := h.letters buf (by rw [hbuf]; exact List.mem_cons_self)
  refine hover.supplied i (by rw [hn, if_pos rfl, hbuf, decide_eq_true rfl]) ?_
  rw [hq, (h.idle i hi).1]

end Inv

/-- The hand-over holds throughout a run just when every notification is read by the
first worker, the one whose queue gets every item. -/
theorem handedOver_throughout (n : ℕ) (hn : 1 ≤ n) (as : List Move) (t : Server)
    (hrun : run step (threadInit n) as = .ok t) :
    Throughout step HandedOver (threadInit n) as ↔ ∀ i, Move.read i ∈ as → i = 0 := by
  have hiff : Throughout step HandedOver (threadInit n) as ↔
      EachStep step (fun _ a => ∀ i, a = .read i → i = 0) (threadInit n) as := by
    refine throughout_iff_eachStep (I := fun s _ => Inv s) (L := fun s a => ∃ s', step s a = .ok s')
      (fun s a as s' hs _ ha h => hs.step ha h) (fun s as hs => hs.handedOver) ?_
      (threadInit_inv hn) (eachStep_ok hrun)
    rintro s a as hs ⟨s', hstep⟩ hbad
    simp only [not_forall] at hbad
    obtain ⟨i, rfl, hi⟩ := hbad
    exact ⟨s', hstep, hs.not_supplied hi hstep⟩
  rw [hiff, eachStep_iff_forall_mem hrun]
  exact ⟨fun h i hi => h _ hi i rfl, fun h a ha i hai => h i (hai ▸ ha)⟩

theorem framed_step {t t' : Server} {a : Move} (h : step t a = .ok t') : Server.Framed t t' := by
  cases a with
  | push sfd newState eventFlag =>
    obtain ⟨-, -, -, -, hf, -⟩ := Server.push_spec h
    exact hf
  | notify written =>
    obtain ⟨-, -, -, -, -, -, rfl⟩ := Server.notify_spec h
    exact ⟨rfl, fun _ => rfl⟩
  | read i =>
    obtain ⟨-, -, -, -, -, -, -, -, -, hf, -⟩ := Server.read_spec h
    exact hf
  | pop i =>
    obtain ⟨-, -, -, -, -, hf, -⟩ := Server.pop_spec h
    exact hf

/-- A single worker reads its own notifications. -/
theorem handedOver_single (as : List Move) :
    Throughout step HandedOver (threadInit 1) as := by
  refine throughout_of_eachStep
    (I := fun t _ => Inv t ∧ ∀ i : ℕ, i ≠ 0 → (t.workthreads[i]?).map (·.fds) = none)
    (L := fun _ _ => True) (C := fun _ _ => True) ?_ (fun t _ ht => ht.1.handedOver)
    ⟨threadInit_inv (le_refl 1), fun i hi => ?_⟩ (eachStep_of_forall (fun _ _ => trivial) _ _)
    (eachStep_of_forall (fun _ _ => trivial) _ _)
  · rintro t a as t' ⟨ht, hone⟩ - - hs
    refine ⟨ht.step (fun i hi => ?_) hs, fun i hi => ((framed_step hs).fds i).trans (hone i hi)⟩
    subst hi
    obtain ⟨w, -, -, -, hw, -⟩ := Server.read_spec hs
    by_contra hne
    have := hone i hne
    rw [hw] at this
    cases this
  · simp only [threadInit, List.getElem?_replicate]
    rw [if_neg (by omega)]
    rfl

/-- A connection handed to the first worker, whose byte worker `i` reads. -/
def handOne (i : ℕ) : List Move := [.push 7 .connRead 1, .notify true, .read i]

theorem handedOver_throughout_first :
    Throughout step HandedOver (threadInit 2) (handOne 0 ++ [.pop 0]) := by
  obtain ⟨t, ht⟩ : ∃ t, run step (threadInit 2) (handOne 0 ++ [.pop 0]) = .ok t := ⟨_, rfl⟩
  refine (handedOver_throughout 2 (by decide) _ t ht).mpr fun i hi => ?_
  simpa [handOne] using hi

/-- With two workers the second can read the byte of the first. -/
theorem not_handedOver_second :
    ¬∀ n : ℕ, 1 ≤ n → ∀ as, Throughout step HandedOver (threadInit n) as := by
  intro h
  obtain ⟨t, ht, hnot, hq⟩ : ∃ t, run step (threadInit 2) (handOne 1) = .ok t ∧
      t.notified 1 = true ∧ t.queue 1 = [] := ⟨_, rfl, rfl, rfl⟩
  exact ((h 2 (by decide) (handOne 1)).last ht).supplied 1 hnot hq

end MiniMemcached.Threads
