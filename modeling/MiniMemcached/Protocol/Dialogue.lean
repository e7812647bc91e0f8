import MiniMemcached.Protocol.Exchange
import MiniMemcached.Runs.Simulation

/-! The server and its clients. While every client waits for its turn, the server at work,
turn by turn and in any order of its connections, is the service: the requests that its
machines carry out are a talk with the service, and what a client reads is what its
requests were answered. -/

namespace MiniMemcached

open Memory Runs

namespace World

/-- A connection that was just made; the allocator has handed out a read buffer of zeros. -/
structure Opened (w : World) : Prop where
  conn : ∃ flagPrecmd flagShake noreply wbuf cas, wbuf.length = WRITEBUF_LEN ∧
    w.conn = Conn.new flagPrecmd flagShake noreply (zeros READBUF_LEN) wbuf cas
  reads : w.reads = []
  sent : w.sent = []

/-- What a client sends in its turn: a line, or the block that it owes. -/
def Expects (w : World) (chunk : List UInt8) : Prop :=
  w.conn.state = .connRead ∧ (∃ l, Brings chunk l) ∨
    w.conn.state = .connNread ∧ (chunk.length : ℤ) = w.conn.rnbufLen

variable {w w' : World} {o : Option Pending} {coming : List (List UInt8)} {left : List UInt8}

theorem Opened.phase (h : Opened w) : Phase w none [] [] := by
  obtain ⟨flagPrecmd, flagShake, noreply, wbuf, cas, hwbuf, hconn⟩ := h.conn
  have hnone : arrivals w.reads = [] := by
    rw [h.reads]
    rfl
  have hclear : w.conn.Clear := by
    rw [hconn]
    exact ⟨rfl, rfl, rfl⟩
  have hready : w.conn.Ready := by
    rw [hconn]
    exact ⟨⟨rfl, rfl, show (0 : ℤ) < WRITEBUF_LEN by decide, rfl.le, hwbuf.ge⟩, rfl, hwbuf⟩
  have hphase := Phase.idle (w := w) (.inl (by rw [hconn]; rfl)) hclear hready fun chunk hchunk => by
    rw [hnone] at hchunk
    cases hchunk
  rwa [hnone] at hphase

theorem Partway.congr {c c' : Conn} {msg : List UInt8} {k : ℕ} (h : c.Partway msg k) (hbuf : c'.wbuf = c.wbuf)
    (hnow : c'.wbufNow = c.wbufNow) (hlen : c'.wbufLen = c.wbufLen) (hwlen : c'.wbufWlen = c.wbufWlen) :
    c'.Partway msg k :=
  ⟨hlen.trans h.length, hbuf ▸ h.front, h.int, hbuf ▸ h.room, h.lt, hwlen.trans h.wlen, hnow.trans h.now⟩

theorem arrivals_append (rs rs' : List ReadResult) : arrivals (rs ++ rs') = arrivals rs ++ arrivals rs' := by
  unfold arrivals
  rw [List.map_append, List.filter_append]

/-- What the phase of a connection does not depend on. -/
theorem Phase.congr (h : Phase w o coming left) (harrive : arrivals w'.reads = arrivals w.reads) {stop : Bool}
    (hconn : w'.conn = { w.conn with flagStop := stop }) : Phase w' o coming left := by
  obtain ⟨conn, cache, reads, writes, sent, heap, deeds⟩ := w'
  dsimp only at harrive hconn
  subst hconn
  cases h with
  | idle hstate hclear hready hcoming =>
    rw [← harrive] at hcoming ⊢
    exact .idle (w := ⟨{ w.conn with flagStop := stop }, cache, reads, writes, sent, heap, deeds⟩) hstate
      (hclear.congr rfl rfl rfl) (hready.congr rfl rfl rfl rfl) hcoming
  | loaded hline hstate hrbuf hrlen hnread hready hnone =>
    exact .loaded hline hstate hrbuf hrlen hnread (hready.congr rfl rfl rfl rfl) (harrive.trans hnone)
  | writing hstate hclear hpart hsize hnone =>
    exact .writing hstate (hclear.congr rfl rfl rfl) (Partway.congr hpart rfl rfl rfl rfl) hsize
      (harrive.trans hnone)
  | awaiting hstate hshake hcmd hne hitem hlen hnread hbuf hrbuf hready hcoming =>
    rw [← harrive] at hcoming ⊢
    exact .awaiting
      (w := ⟨{ w.conn with flagStop := stop }, cache, reads, writes, sent, heap, deeds⟩) hstate hshake
      hcmd hne hitem hlen hnread hbuf hrbuf (hready.congr rfl rfl rfl rfl) hcoming
  | closed hstate => exact .closed hstate

/-- The socket brings something. -/
theorem Phase.event (h : Phase w o coming left) {reads : List ReadResult}
    (hturn : ∀ chunk ∈ arrivals reads, arrivals (w.reads ++ reads) = [chunk] ∧ w.Expects chunk)
    (hreads : w'.reads = w.reads ++ reads) (hconn : w'.conn = w.conn) :
    Phase w' o (coming ++ arrivals reads) left := by
  by_cases hnone : arrivals reads = []
  · have harrive : arrivals w'.reads = arrivals w.reads := by
      rw [hreads, arrivals_append, hnone, List.append_nil]
    rw [hnone, List.append_nil]
    exact h.congr harrive (hconn.trans rfl)
  · obtain ⟨chunk, chunks, hchunk⟩ := List.exists_cons_of_ne_nil hnone
    obtain ⟨hone, hexpects⟩ := hturn chunk (by rw [hchunk]; exact List.mem_cons_self)
    have hsum := hone
    rw [arrivals_append, hchunk] at hsum
    -- nothing was left of an earlier event
    have hold : arrivals w.reads = [] := by
      cases hw : arrivals w.reads with
      | nil => rfl
      | cons x xs =>
        rw [hw] at hsum
        simpa using congrArg List.length hsum
    have hnew : arrivals reads = [chunk] := by rwa [hold, List.nil_append, ← hchunk] at hsum
    have harrive : arrivals w'.reads = [chunk] := hreads ▸ hone
    obtain ⟨conn, cache, reads', writes, sent, heap, deeds⟩ := w'
    dsimp only at harrive hconn
    subst hconn
    rw [hnew]
    cases h with
    | idle hstate hclear hready hcoming =>
      rcases hexpects with ⟨-, hline⟩ | ⟨hno, -⟩
      · rw [hold, List.nil_append, ← harrive]
        refine .idle (w := ⟨w.conn, cache, reads', writes, sent, heap, deeds⟩) hstate hclear hready
          fun c hc => ?_
        have hc : c ∈ arrivals reads' := hc
        rw [harrive, List.mem_singleton] at hc
        exact hc ▸ ⟨harrive, hline⟩
      · rcases hstate with e | e <;> cases e.symm.trans hno
    | loaded _ hstate => rcases hexpects with ⟨e, -⟩ | ⟨e, -⟩ <;> cases hstate.symm.trans e
    | writing hstate => rcases hexpects with ⟨e, -⟩ | ⟨e, -⟩ <;> cases hstate.symm.trans e
    | awaiting hstate hshake hcmd hne hitem hlen hnread hbuf hrbuf hready hcoming =>
      rcases hexpects with ⟨e, -⟩ | ⟨-, hbytes⟩
      · cases hstate.symm.trans e
      · rw [hold, List.nil_append, ← harrive]
        refine .awaiting (w := ⟨w.conn, cache, reads', writes, sent, heap, deeds⟩) hstate hshake hcmd
          hne hitem hlen
          hnread hbuf hrbuf hready fun c hc => ?_
        have hc : c ∈ arrivals reads' := hc
        rw [harrive, List.mem_singleton] at hc
        exact hc ▸ ⟨harrive, hbytes.trans hlen⟩
    | closed hstate => rcases hexpects with ⟨e, -⟩ | ⟨e, -⟩ <;> cases hstate.symm.trans e

theorem length_le_one {α : Type*} {l : List α} {P : α → Prop} (h : ∀ a ∈ l, l = [a] ∧ P a) :
    l.length ≤ 1 := by
  cases l with
  | nil => exact Nat.zero_le _
  | cons a l =>
    rw [(h a List.mem_cons_self).1]
    rfl

/-- One piece at most waits in a connection that is open. -/
theorem Phase.length_coming (h : Phase w o coming left) (hopen : w.conn.state ≠ .connClosed) :
    coming.length ≤ 1 := by
  cases h with
  | idle _ _ _ hcoming => exact length_le_one hcoming
  | loaded => exact le_rfl
  | writing => exact Nat.zero_le _
  | awaiting _ _ _ _ _ _ _ _ _ _ hcoming => exact length_le_one hcoming
  | closed hstate => exact absurd hstate hopen

end World

/-! ### Whether clients wait for their turn can be computed -/

instance (chunk l : List UInt8) : Decidable (Brings chunk l) :=
  decidable_of_iff (chunk = l ++ crlf ∧ (∀ b ∈ l, b ≠ 0 ∧ b ≠ 10) ∧
    ((tokensOf l).length = 1 ∨ (tokensOf l).length = 2 ∨ VerbFits (tokensOf l)) ∧ chunk.length < READBUF_LEN)
    ⟨fun h => ⟨h.1, h.2.1, h.2.2.1, h.2.2.2⟩, fun h => ⟨h.eq, h.clean, h.asks, h.small⟩⟩

theorem Brings.line {chunk l : List UInt8} (h : Brings chunk l) : l = chunk.take (chunk.length - 2) := by
  rw [h.eq, List.length_append, show crlf.length = 2 from rfl, Nat.add_sub_cancel, List.take_left]

instance (chunk : List UInt8) : Decidable (∃ l, Brings chunk l) :=
  decidable_of_iff (Brings chunk (chunk.take (chunk.length - 2))) ⟨fun h => ⟨_, h⟩, fun ⟨_, h⟩ => h.line ▸ h⟩

instance (w : World) (chunk : List UInt8) : Decidable (w.Expects chunk) := by
  unfold World.Expects
  infer_instance

/-- The pieces that an event brings to a connection. -/
def Stir.brings (i : ℕ) : Stir → List (List UInt8)
  | .event j _ reads _ => if j = i then arrivals reads else []
  | _ => []

namespace Server

/-- Everything that was brought to a connection. -/
def brought (i : ℕ) (as : List Stir) : List (List UInt8) := as.flatMap (Stir.brings i)

/-- Watchers fire that are started, each client sends in its turn and one piece at a time, and no
line is refused that leaves its connection stranded. -/
def Polite (V : Server) : Stir → Prop
  | .event i watcher reads _ => (V.conn i).running = false ∧ (V.conn i).world.conn.started watcher = true ∧
      ∀ chunk ∈ arrivals reads, arrivals ((V.conn i).world.reads ++ reads) = [chunk] ∧
        (V.conn i).world.Expects chunk
  | .turn i => (V.conn i).running = true → ¬(V.serving i).world.Strands
  | .clock _ => True

instance (V : Server) : ∀ a, Decidable (V.Polite a)
  | .event i watcher reads _ => inferInstanceAs (Decidable ((V.conn i).running = false ∧
      (V.conn i).world.conn.started watcher = true ∧ ∀ chunk ∈ arrivals reads,
        arrivals ((V.conn i).world.reads ++ reads) = [chunk] ∧ (V.conn i).world.Expects chunk))
  | .turn i => inferInstanceAs (Decidable ((V.conn i).running = true → ¬(V.serving i).world.Strands))
  | .clock _ => .isTrue trivial

/-- The client of a connection after a run: the pieces that were worked on and their
answers, the pieces that were not, and what is left to be sent. -/
structure Client (V : Server) (i : ℕ) (as : List Stir) (xs : List (Action × Answer))
    (o : Option Pending) : Prop where
  talk : ∃ heard coming out left, Conversation (xs.filter (·.1.conn = i)) heard out (o.map Pending.line) ∧
    (V.conn i).world.Phase o coming left ∧ brought i as = heard ++ coming ∧ coming.length ≤ 1 ∧
    (V.conn i).world.sent ++ left = out

/-- The server is at this point of a talk with the service. -/
structure Tracks (as : List Stir) (V : Server) (xs : List (Action × Answer)) (st : Service) : Prop where
  inv : ∃ g, Service.Inv st g ∧ Sized st.cache g
  cache : V.cache = { st.cache with clock := V.cache.clock }
  client : ∀ i, Client V i as xs (st.pending i)

variable {V V' : Server} {as : List Stir} {xs : List (Action × Answer)} {st : Service} {i : ℕ}

theorem brought_append (i : ℕ) (as : List Stir) (a : Stir) :
    brought i (as ++ [a]) = brought i as ++ Stir.brings i a := by
  unfold brought
  rw [List.flatMap_append, List.flatMap_singleton]

/-- A connection that took no part. -/
theorem Client.other {o : Option Pending} (h : Client V i as xs o) {a : Stir} (hconn : V'.conn i = V.conn i)
    (hbrings : Stir.brings i a = []) {ys : List (Action × Answer)} (hys : ∀ y ∈ ys, y.1.conn ≠ i) :
    Client V' i (as ++ [a]) (xs ++ ys) o := by
  obtain ⟨heard, coming, out, left, htalk, hphase, hbrought, hone, hsent⟩ := h.talk
  have hnone : ys.filter (·.1.conn = i) = [] := by simpa using fun a r hy => hys (a, r) hy
  refine ⟨heard, coming, out, left, ?_, hconn ▸ hphase, ?_, hone, hconn ▸ hsent⟩
  · rw [List.filter_append, hnone, List.append_nil]
    exact htalk
  · rw [brought_append, hbrings, List.append_nil, hbrought]

/-- A step of one connection that does not work on the cache. -/
theorem Tracks.quiet (h : Tracks as V xs st) {a : Stir} {s : Serving} (hcache : s.world.cache = V.cache)
    (hclient : Client (V.stirred i s) i (as ++ [a]) xs (st.pending i))
    (hbrings : ∀ j ≠ i, Stir.brings j a = []) :
    Tracks (as ++ [a]) (V.stirred i s) xs st := by
  have hsame : (V.stirred i s).cache = V.cache := hcache
  refine ⟨h.inv, hsame ▸ h.cache, fun j => ?_⟩
  by_cases hj : j = i
  · exact hj ▸ hclient
  · have hother : Client (V.stirred i s) j (as ++ [a]) (xs ++ []) (st.pending j) :=
      (h.client j).other (Function.update_of_ne hj ..) (hbrings j hj) (by simp)
    rwa [List.append_nil] at hother

/-- What a watcher fires for is added to what the socket has brought. -/
theorem Tracks.event (h : Tracks as V xs st) {watcher : Watcher} {reads : List ReadResult}
    {writes : List WriteResult} (hpolite : V.Polite (.event i watcher reads writes))
    (hstep : V.step (.event i watcher reads writes) = .ok V') :
    Tracks (as ++ [.event i watcher reads writes]) V' xs st := by
  obtain ⟨hrest, hstarted, hturn⟩ := hpolite
  obtain ⟨s, hs, hstep⟩ := Result.bind_eq_ok.mp hstep
  cases hstep
  have hfires : ¬((V.serving i).running = true ∨ (V.serving i).world.conn.started watcher = false) := by
    rintro (hrun | hno)
    · exact absurd (hrest.symm.trans hrun) (by simp)
    · exact absurd (hstarted.symm.trans hno) (by simp)
  simp only [Serving.step] at hs
  rw [if_neg hfires] at hs
  cases hs
  refine h.quiet rfl ?_ fun j hj => if_neg (Ne.symm hj)
  obtain ⟨heard, coming, out, left, htalk, hphase, hbrought, hone, hsent⟩ := (h.client i).talk
  have hself : ∀ s, (V.stirred i s).conn i = s := fun s => Function.update_self ..
  refine ⟨heard, coming ++ arrivals reads, out, left, htalk, ?_, ?_, ?_, ?_⟩
  · rw [hself]
    exact hphase.event hturn rfl rfl
  · rw [brought_append, hbrought, List.append_assoc, Stir.brings, if_pos rfl]
  · by_cases hnone : arrivals reads = []
    · rw [hnone, List.append_nil]
      exact hone
    · obtain ⟨chunk, chunks, hchunk⟩ := List.exists_cons_of_ne_nil hnone
      obtain ⟨-, hexpects⟩ := hturn chunk (by rw [hchunk]; exact List.mem_cons_self)
      have hphase' : World.Phase { (V.conn i).world with reads := (V.conn i).world.reads ++ reads }
          (st.pending i) (coming ++ arrivals reads) left := hphase.event hturn rfl rfl
      refine hphase'.length_coming ?_
      show (V.conn i).world.conn.state ≠ _
      rcases hexpects with ⟨e, -⟩ | ⟨e, -⟩ <;> simp [e]
  · rw [hself]
    exact hsent

/-- What a machine leaves when it has taken its turn. -/
theorem phase_after {w : World} {o : Option Pending} {coming : List (List UInt8)} {left : List UInt8}
    (h : w.Phase o coming left) : (Serving.after w).world.Phase o coming left := by
  unfold Serving.after
  split
  · exact h.congr rfl rfl
  · exact h

theorem sent_after (w : World) : (Serving.after w).world.sent = w.sent ∧
    (Serving.after w).world.cache = w.cache := by
  unfold Serving.after
  split <;> exact ⟨rfl, rfl⟩

/-- A machine takes a turn. -/
theorem Tracks.turn (h : Tracks as V xs st) (hpolite : V.Polite (.turn i))
    (hstep : V.step (.turn i) = .ok V') :
    ∃ ys st', Path Service.Talk st ys st' ∧ Tracks (as ++ [.turn i]) V' (xs ++ ys) st' := by
  obtain ⟨s, hs, hstep⟩ := Result.bind_eq_ok.mp hstep
  cases hstep
  obtain ⟨heard, coming, out, left, htalk, hphase, hbrought, hone, hsent⟩ := (h.client i).talk
  have hself : ∀ s, (V.stirred i s).conn i = s := fun s => Function.update_self ..
  have hturned : brought i (as ++ [.turn i]) = heard ++ coming := by
    rw [brought_append, hbrought]
    exact List.append_nil _
  have hserving : (V.serving i).world.Phase (st.pending i) coming left := hphase.congr rfl rfl
  simp only [Serving.step] at hs
  split at hs
  · rename_i hrun
    obtain ⟨w, hw, hs⟩ := Result.bind_eq_ok.mp hs
    cases hs
    obtain ⟨hsame, hcache⟩ := sent_after w
    obtain ⟨g, hinv, hsized⟩ := h.inv
    have hclock : (V.serving i).world.cache =
      { st.cache with clock := (V.serving i).world.cache.clock } := h.cache
    have hsound : Sound (V.serving i).world.cache g := hclock ▸ hinv.sound.setClock _
    have hsized' : Sized (V.serving i).world.cache g := hclock ▸ hsized.setClock _
    cases hserving.advance hsound hsized' hclock (hpolite hrun) hw with
    | @silent hc left' hphase' hsent' =>
      refine ⟨[], st, .nil st, ?_⟩
      rw [List.append_nil]
      refine h.quiet (hcache.trans hc) ?_ fun _ _ => rfl
      refine ⟨heard, coming, out, left', htalk, ?_, hturned, hone, ?_⟩
      · rw [hself]
        exact phase_after hphase'
      · rw [hself, hsame, hsent']
        exact hsent
    | @aside chunk text hc haside hfree hcoming hleft hphase' hsent' =>
      refine ⟨[], st, .nil st, ?_⟩
      rw [List.append_nil]
      refine h.quiet (hcache.trans hc) ?_ fun _ _ => rfl
      subst hcoming hleft
      rw [hfree] at htalk hphase' ⊢
      refine ⟨heard ++ [chunk], [], out ++ text, text, .aside htalk haside, ?_, ?_, Nat.zero_le _, ?_⟩
      · rw [hself]
        exact phase_after hphase'
      · rw [hturned, List.append_nil]
      · rw [hself, hsame, hsent', ← hsent, List.append_nil]
        rfl
    | @request req st' chunk text hreq hc hexch hcoming hleft hphase' hsent' =>
      have htalks : Service.Talk st (⟨(V.serving i).world.cache.clock, i, req⟩, st'.answer) st' := ⟨hreq, rfl⟩
      refine ⟨_, st', .single htalks, Service.sized_step ⟨g, hinv, hsized⟩ hreq, ?_, fun j => ?_⟩
      · have hcache' : (V.stirred i (Serving.after w)).cache = st'.cache := hcache.trans hc
        rw [hcache']
      · subst hcoming hleft
        by_cases hj : j = i
        · subst hj
          refine ⟨heard ++ [chunk], [], out ++ text, text, ?_, ?_, ?_, Nat.zero_le _, ?_⟩
          · rw [List.filter_append, List.filter_singleton]
            simp only [decide_true]
            exact .request htalk hexch
          · rw [hself]
            exact phase_after hphase'
          · rw [hturned, List.append_nil]
          · rw [hself, hsame, hsent', ← hsent, List.append_nil]
            rfl
        · rw [Service.pending_of_step hreq hj]
          exact (h.client j).other (Function.update_of_ne hj ..) rfl (by simpa using Ne.symm hj)
  · cases hs
    refine ⟨[], st, .nil st, ?_⟩
    rw [List.append_nil]
    refine h.quiet rfl ?_ fun _ _ => rfl
    refine ⟨heard, coming, out, left, htalk, ?_, hturned, hone, ?_⟩
    · rw [hself]
      exact hserving
    · rw [hself]
      exact hsent

theorem Tracks.clock (h : Tracks as V xs st) (now : UInt32) :
    Tracks (as ++ [.clock now]) { V with cache := { V.cache with clock := now } } xs st := by
  refine ⟨h.inv, ?_, fun i => ?_⟩
  · rw [h.cache]
  · have hclient : Client { V with cache := { V.cache with clock := now } } i (as ++ [.clock now]) (xs ++ [])
      (st.pending i) := by
        apply (h.client i).other
        · rfl
        · rfl
        · simp
    rwa [List.append_nil] at hclient

/-- Every step of the server is nothing to the service or one request. -/
theorem follows : Follows step Service.Talk Tracks Polite := by
  intro as V xs st a V' h hpolite hstep
  cases a with
  | event i watcher reads writes =>
    refine ⟨[], st, .nil st, ?_⟩
    rw [List.append_nil]
    exact h.event hpolite hstep
  | turn i => exact h.turn hpolite hstep
  | clock now =>
    cases hstep
    refine ⟨[], st, .nil st, ?_⟩
    rw [List.append_nil]
    exact h.clock now

/-- At the start nobody has sent anything. -/
theorem tracks_start {limit : ℕ} {set : Settings} {mallocOk : ℕ → Bool} {hashpower : ℕ} {s₀ : Cache}
    (hinit : Cache.init limit set mallocOk hashpower = some s₀) {w : ℕ → World}
    (hopened : ∀ i, (w i).Opened) :
    Tracks [] (start s₀ w) [] (Service.start s₀) := by
  refine ⟨Service.sized_start hinit, rfl, fun i =>
    ⟨[], [], [], [], .nil, (hopened i).phase, rfl, Nat.zero_le _, ?_⟩⟩
  show (w i).sent ++ [] = []
  rw [(hopened i).sent, List.append_nil]

/-- The client of a connection, when the requests were these: of the pieces that it has
sent all but the last were worked on, what it has read are bytes of their answers, and
from a connection that waits it has read all of them. -/
def Serves (V : Server) (as : List Stir) (xs : List (Action × Answer)) (i : ℕ) : Prop :=
  ∃ heard out o, Conversation (xs.filter (·.1.conn = i)) heard out o ∧ heard <+: brought i as ∧
    (brought i as).length ≤ heard.length + 1 ∧ (V.conn i).world.sent <+: out ∧
    ((V.conn i).world.conn.state = .connRead ∨ (V.conn i).world.conn.state = .connNread →
      (V.conn i).world.sent = out ∧ (arrivals (V.conn i).world.reads = [] → heard = brought i as))

theorem Client.serves {o : Option Pending} (h : Client V i as xs o) : V.Serves as xs i := by
  obtain ⟨heard, coming, out, left, htalk, hphase, hbrought, hone, hsent⟩ := h.talk
  refine ⟨heard, out, _, htalk, ⟨coming, hbrought.symm⟩, ?_, ⟨left, hsent⟩, fun hwaits => ?_⟩
  · rw [hbrought, List.length_append]
    omega
  · rw [hbrought]
    cases hphase with
    | idle => exact ⟨(List.append_nil _).symm.trans hsent, fun hnone => by rw [hnone, List.append_nil]⟩
    | loaded _ hstate => rcases hwaits with e | e <;> cases hstate.symm.trans e
    | writing hstate => rcases hwaits with e | e <;> cases hstate.symm.trans e
    | awaiting => exact ⟨(List.append_nil _).symm.trans hsent, fun hnone => by rw [hnone, List.append_nil]⟩
    | closed hstate => rcases hwaits with e | e <;> cases hstate.symm.trans e

/-- In every run of the server whose clients wait for their turn, with any number of
connections that take turns in any order, answers that go out in any pieces, and sockets
that fail, the machines carry out the requests of a talk with the service, which is one
with the ideal service; each connection carries out those that its client has sent, in
their order, and its client reads their answers. -/
theorem run_serves {limit : ℕ} {set : Settings} {mallocOk : ℕ → Bool} {hashpower : ℕ} {s₀ : Cache}
    (hinit : Cache.init limit set mallocOk hashpower = some s₀) (w : ℕ → World) (hopened : ∀ i, (w i).Opened)
    {as : List Stir} (hpolite : EachStep step Polite (start s₀ w) as)
    (hrun : run step (start s₀ w) as = .ok V) :
    ∃ xs st, Path Service.Talk (Service.start s₀) xs st ∧ Path (Ideal.Step s₀.bucketOf) .empty xs st.ideal ∧
      V.cache = { st.cache with clock := V.cache.clock } ∧ ∀ i, V.Serves as xs i := by
  obtain ⟨xs, st, htalk, htracks⟩ := follows.run (tracks_start hinit hopened) hpolite hrun
  exact ⟨xs, st, htalk, Service.talk_refines hinit htalk, htracks.cache, fun i => (htracks.client i).serves⟩

/-- A key is set on one connection and read on another. -/
def setThenAsk : List Stir :=
  setShort ++ reading 1 (bytes "get a" ++ crlf) 2 ++ [.event 1 .write [] [.wrote 2048], .turn 1, .turn 1]

theorem run_serves_setThenAsk : ∃ s₀ V xs, ∃ st : Service,
    Cache.init 1 Service.smallSettings (fun _ => true) 0 = some s₀ ∧
    run step (start s₀ fun _ => Serving.fresh s₀) setThenAsk = .ok V ∧
    Path (Ideal.Step s₀.bucketOf) .empty xs st.ideal ∧ (∀ i, V.Serves setThenAsk xs i) ∧
    (V.conn 1).world.sent.take 23 = bytes "VALUE a 9 3 1\nx\r\nEND\r\n" ++ [0] := by
  have htrial : (Cache.init 1 Service.smallSettings (fun _ => true) 0).any (fun s =>
      decide (EachStep step Polite (start s fun _ => Serving.fresh s) setThenAsk) &&
      (run step (start s fun _ => Serving.fresh s) setThenAsk).toOption.any fun V =>
        decide ((V.conn 1).world.sent.take 23 = bytes "VALUE a 9 3 1\nx\r\nEND\r\n" ++ [0])) = true := by
    decide +kernel
  obtain ⟨s₀, hinit, hs⟩ := Service.exists_init htrial
  obtain ⟨hpolite, hs⟩ := (Bool.and_eq_true_iff ..).mp hs
  obtain ⟨V, hV, hsent⟩ := (Option.any_eq_true _ _).mp hs
  have hrun := Result.eq_ok_of_toOption hV
  obtain ⟨xs, st, -, hideal, -, hserves⟩ := run_serves hinit (fun _ => Serving.fresh s₀)
    (fun _ => ⟨⟨false, false, false, _, 0, length_zeros _, rfl⟩, rfl, rfl⟩) (of_decide_eq_true hpolite) hrun
  exact ⟨s₀, V, xs, st, hinit, hrun, hideal, hserves, of_decide_eq_true hsent⟩

end Server

end MiniMemcached
