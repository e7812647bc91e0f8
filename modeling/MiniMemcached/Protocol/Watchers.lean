import MiniMemcached.Protocol.Steps
import MiniMemcached.Service.Requests

/-! A connection in the event loop of its worker. A watcher that is started may fire,
which starts `drive_machine`; the machine then takes its turns until one of them has
set `flag_stop`, while other connections work on the cache between the turns. When
it returns, the watcher that the state needs has to be started: nothing else wakes
the connection up. -/

namespace MiniMemcached

open Memory Runs

/-- A connection and whether `drive_machine` is at work on it. -/
structure Serving where
  world : World
  running : Bool

inductive Watcher
  | read
  | write
  deriving DecidableEq, Repr

def Conn.started (c : Conn) : Watcher → Bool
  | .read => c.readWatcher
  | .write => c.writeWatcher

/-- A watcher fires, with what the socket is going to do; the machine takes a turn; or
others change the cache. -/
inductive Happening
  | event (watcher : Watcher) (reads : List ReadResult) (writes : List WriteResult)
  | turn
  | others (cache : Cache)

namespace Serving

/-- The machine goes on, or it returns. -/
def after (w : World) : Serving :=
  if w.conn.flagStop then ⟨w.setStop false, false⟩ else ⟨w, true⟩

/-- A watcher that is not started does not fire, and a machine at rest takes no turn. -/
def step (s : Serving) : Happening → Result Serving
  | .event watcher reads writes =>
    if s.running ∨ s.world.conn.started watcher = false then .ok s
    else .ok
      { world := { s.world with
          reads := s.world.reads ++ reads
          writes := s.world.writes ++ writes }
        running := true }
  | .turn => if s.running then s.world.turn >>= fun w => .ok (after w) else .ok s
  | .others cache => .ok { s with world := { s.world with cache := cache } }

/-- A connection that was just made. -/
def start (w : World) : Serving := ⟨w, false⟩

/-- What every turn keeps of the connection, and `flag_stop` does not bear on, is kept. -/
theorem step_kept {P : World → Prop} (hturn : ∀ w w', P w → w.turn = .ok w' → P w')
    (hconn : ∀ w w' : World, ∀ b, P w → w'.conn = { w.conn with flagStop := b } → P w')
    {s s' : Serving} {a : Happening} (h : P s.world) (hstep : step s a = .ok s') : P s'.world := by
  have hsame : ∀ w : World, w.conn = s.world.conn →
    P w := fun w hw => hconn s.world w s.world.conn.flagStop h hw
  cases a with
  | event watcher reads writes =>
    simp only [step] at hstep
    split at hstep
    · cases hstep
      exact h
    · cases hstep
      exact hsame _ rfl
  | turn =>
    simp only [step] at hstep
    split at hstep
    · obtain ⟨w, hw, hstep⟩ := Result.bind_eq_ok.mp hstep
      cases hstep
      have hnext := hturn s.world w h hw
      unfold after
      split
      · exact hconn w _ false hnext rfl
      · exact hnext
    · cases hstep
      exact h
  | others cache =>
    cases hstep
    exact hsame _ rfl

end Serving

/-- The watcher that the state waits for is started. -/
def Conn.Armed (c : Conn) : Prop :=
  (c.state = .connWrite → c.writeWatcher = true) ∧
  (c.state ∈ [ConnStates.connRead, .connWaiting, .connParseCmd, .connNread] → c.readWatcher = true)

/-- Where the machine has returned and the connection is not closed, it will be woken up. -/
def Serving.Wakeful (s : Serving) : Prop :=
  s.running = false → s.world.conn.state ≠ .connClosed → s.world.conn.Armed

/-- The handler of such a line only queues its answer: the key of a `get` is too long,
or a storage line has a bad format or gets no memory. -/
def OnlyQueues (s : Cache) (tokens : List (List UInt8)) : Prop :=
  World.LongGet tokens ∨
  ((tokens.length = 5 ∨ tokens.length = 6) ∧
    ∀ L, parseStoreLine tokens (decide (tokens.length = 6)) = some L →
      ∃ s', s.allocLine L = .ok (s', none))

/-- A line of that kind is about to be parsed, and a zero follows it. -/
def World.Strands (w : World) : Prop :=
  w.conn.state = .connParseCmd ∧ w.conn.rbufRlen ≠ 0 ∧
  ∃ endflag, memchr w.conn.rbuf 0 (toSizeT w.conn.rbufRlen) 10 = .found endflag ∧
    slice w.conn.rbuf (endflag + 1) 1 = [0] ∧ OnlyQueues w.cache (w.tokensAt endflag)

/-! Both can be computed. -/

instance (r : Result (Cache × Option Ptr)) : Decidable (∃ s, r = .ok (s, none)) :=
  match r with
  | .ok (s, none) => isTrue ⟨s, rfl⟩
  | .ok (_, some _) => isFalse (by rintro ⟨s, h⟩; cases h)
  | .error _ => isFalse (by rintro ⟨s, h⟩; cases h)

instance (o : Option StoreLine) (P : StoreLine → Prop) [DecidablePred P] :
    Decidable (∀ L, o = some L → P L) :=
  match o with
  | none => isTrue (by simp)
  | some L => decidable_of_iff (P L) (by simp)

instance (s : Cache) (tokens : List (List UInt8)) : Decidable (OnlyQueues s tokens) := by
  unfold OnlyQueues World.LongGet
  infer_instance

instance (r : Memory.Scan) (P : ℕ → Prop) [DecidablePred P] : Decidable (∃ e, r = .found e ∧ P e) :=
  match r with
  | .found e => decidable_of_iff (P e) (by simp)
  | .missing => isFalse (by simp)
  | .outside => isFalse (by simp)

instance (w : World) : Decidable w.Strands := by
  unfold World.Strands
  infer_instance

instance : ∀ a : Happening, Decidable (a = .turn)
  | .turn => isTrue rfl
  | .event .. | .others _ => isFalse nofun

namespace World

theorem settle_of_nothing (w : World) :
    w.settle false =
      if w.conn.flagShake then w.setState .connWaiting else (w.setState .connWaiting).setStop true := by
  unfold settle setState setStop
  by_cases h : w.conn.flagShake = true
  · simp [h]
  · simp [h]

theorem settle_of_alone {w : World} (h : w.conn.flagShake = false) :
    w.settle true =
      if w.conn.state = .connClosed then (w.setStop true).setStop false else w.setStop true := by
  unfold settle
  simp only [h, if_true, Bool.false_eq_true, if_false]
  rfl

theorem settle_of_followed {w : World} (h : w.conn.flagShake = true) (hstop : w.conn.flagStop = false) :
    w.settle true = w := by
  have hset : w.setStop false = w := by rw [← hstop]; rfl
  unfold settle
  simp only [h, if_true, hset, ite_self]

/-- A handler clears the buffer and starts the write watcher, or it leaves the watchers
alone; the second kind answers without being woken up to send. -/
theorem Handled.watchers {w w' : World} {tokens : List (List UInt8)} (h : Handled w tokens w') :
    (w'.conn.rbuf = zeros w.conn.rbuf.length ∧ w'.conn.rbufRlen = 0 ∧
      (w'.conn.state = .connWrite ∧ w'.conn.readWatcher = false ∧ w'.conn.writeWatcher = true ∨
        w'.conn.state = .connRead ∧ w'.conn.readWatcher = w.conn.readWatcher ∧
          w'.conn.writeWatcher = w.conn.writeWatcher)) ∨
    (w'.conn.readWatcher = w.conn.readWatcher ∧ w'.conn.writeWatcher = w.conn.writeWatcher ∧
      (w'.conn.state = .connWrite ∧ OnlyQueues w.cache tokens ∨ w'.conn.state = .connNread ∨
        w'.conn.state = .connClosed ∨ w'.conn.state = w.conn.state)) := by
  cases h
  case answered => exact .inl ⟨rfl, rfl, .inl ⟨rfl, rfl, rfl⟩⟩
  case value => exact .inl ⟨rfl, rfl, .inl ⟨rfl, rfl, rfl⟩⟩
  case longKey hlong => exact .inr ⟨rfl, rfl, .inl ⟨rfl, .inl hlong⟩⟩
  case badFormat hlen hparse =>
    refine .inr ⟨rfl, rfl, .inl ⟨rfl, .inr ⟨hlen, fun L hL => ?_⟩⟩⟩
    rw [hparse] at hL
    cases hL
  case noMemory L s s' item text hlen hparse halloc =>
    refine .inr ⟨rfl, rfl, .inl ⟨rfl, .inr ⟨hlen, fun L' hL => ?_⟩⟩⟩
    rw [hparse] at hL
    cases hL
    exact ⟨s, halloc⟩
  case accepted => exact .inr ⟨rfl, rfl, .inr (.inl rfl)⟩
  case quit => exact .inr ⟨rfl, rfl, .inr (.inr (.inl rfl))⟩
  case ignored => exact .inr ⟨rfl, rfl, .inr (.inr (.inr rfl))⟩
  case empty => exact .inl ⟨rfl, rfl, .inr ⟨rfl, rfl, rfl⟩⟩

/-- Such a line ends in a queued answer, with the watchers as they were. -/
theorem Handled.queues {w w' : World} {tokens : List (List UInt8)} (h : Handled w tokens w')
    (hq : OnlyQueues w.cache tokens) :
    w'.conn.state = .connWrite ∧ w'.conn.writeWatcher = w.conn.writeWatcher := by
  rcases hq with hlong | ⟨hlen, hq⟩
  · have h2 := hlong.1
    cases h
    case longKey => exact ⟨rfl, rfl⟩
    case answered hno => exact absurd hlong hno
    case value hkey _ _ _ _ _ _ _ _ => exact absurd hlong.2.2 (by omega)
    case empty hno => exact absurd h2 (by intro e; simp [e] at hno)
    all_goals omega
  · cases h
    case badFormat => exact ⟨rfl, rfl⟩
    case noMemory => exact ⟨rfl, rfl⟩
    case accepted L s it hlen' hparse halloc =>
      obtain ⟨s', hs'⟩ := hq L hparse
      have halloc : w.cache.allocLine L = .ok (s, some it) := halloc
      rw [halloc] at hs'
      cases hs'
    case longKey hlong => have := hlong.1; omega
    case empty hno => exact absurd hlen (by simp at hno; omega)
    all_goals omega

/-- Behind a line whose handler has cleared the buffer nothing can be looked for: the
length is negative, and the scan leaves the buffer. -/
theorem Shaken.not_cleared {w w' : World} {tempEnd : ℕ} (hpos : 0 < tempEnd)
    (hend : tempEnd ≤ w.conn.rbuf.length) (hlen : w.conn.rbuf.length < 2 ^ 31)
    (hzeros : ∃ n, w.conn.rbuf = zeros n) : ¬Shaken w tempEnd (0 - tempEnd) w' := by
  obtain ⟨n, hn⟩ := hzeros
  have hsize : toSizeT (0 - tempEnd) = 2 ^ 64 - tempEnd := by
    unfold toSizeT
    omega
  have hout : memchr w.conn.rbuf tempEnd (toSizeT (0 - tempEnd)) 13 = .outside := by
    rw [hn, length_zeros] at hend hlen
    rw [hn, memchr_zeros (by decide), hsize, if_neg (by omega)]
  intro h
  cases h with
  | kept hscan => rw [hout] at hscan; cases hscan
  | block i hscan => rw [hout] at hscan; cases hscan
  | line i hscan => rw [hout] at hscan; cases hscan

end World

namespace Conn

/-- Waiting for the socket to be readable. -/
def Listens (c : Conn) : Prop := c.readWatcher = true ∧ c.writeWatcher = false

/-- Waiting for the socket to be writable. -/
def Sends (c : Conn) : Prop := c.readWatcher = false ∧ c.writeWatcher = true

/-- The watchers by state, while the machine is at work. A complete block of an unknown
command keeps the machine in `conn_nread` for ever with the write watcher started. -/
structure Watched (c : Conn) : Prop where
  stop : c.flagStop = false
  length : c.rbuf.length < 2 ^ 31
  reading : c.state = .connRead ∨ c.state = .connWaiting ∨ c.state = .connParseCmd → c.Listens
  nread : c.state = .connNread → c.Listens ∨ (c.cmd = .error ∧ c.rnbufLen = c.rnbufRlen)
  writing : c.state = .connWrite → c.Listens ∨ c.Sends

end Conn

namespace Serving

/-- The watchers, and what holds of them when the machine has returned. -/
structure Watched (s : Serving) : Prop where
  conn : s.world.conn.Watched
  nread : s.running = false → s.world.conn.state = .connNread → s.world.conn.Listens
  writing : s.running = false → s.world.conn.state = .connWrite → s.world.conn.Sends

theorem Watched.wakeful {s : Serving} (h : s.Watched) : s.Wakeful := by
  intro hrun _
  refine ⟨fun hw => (h.writing hrun hw).2, fun hmem => ?_⟩
  simp only [List.mem_cons, List.not_mem_nil, or_false] at hmem
  rcases hmem with hr | hr | hr | hr
  · exact (h.conn.reading (.inl hr)).1
  · exact (h.conn.reading (.inr (.inl hr))).1
  · exact (h.conn.reading (.inr (.inr hr))).1
  · exact (h.nread hrun hr).1

/-- A turn that lets the machine go on. -/
theorem watched_after {w : World} (h : w.conn.Watched) : (after w).Watched := by
  unfold after
  rw [if_neg (by simp [h.stop])]
  exact ⟨h, fun hr _ => absurd hr (by simp), fun hr _ => absurd hr (by simp)⟩

/-- A turn that ends the call. -/
theorem watched_after_stop {w : World} (hlen : w.conn.rbuf.length < 2 ^ 31)
    (hreading : w.conn.state = .connRead ∨ w.conn.state = .connWaiting ∨
      w.conn.state = .connParseCmd ∨ w.conn.state = .connNread → w.conn.Listens)
    (hwriting : w.conn.state = .connWrite → w.conn.Sends) : (after (w.setStop true)).Watched := by
  unfold after
  rw [if_pos (by rfl)]
  refine ⟨⟨rfl, hlen, fun h => hreading ?_, fun h => .inl (hreading (.inr (.inr (.inr h)))),
    fun h => .inr (hwriting h)⟩, fun _ h => hreading (.inr (.inr (.inr h))), fun _ h => hwriting h⟩
  rcases h with h | h | h
  · exact .inl h
  · exact .inr (.inl h)
  · exact .inr (.inr (.inl h))

/-- After a line that nothing follows the call ends, unless the connection is closed. -/
theorem watched_alone {w w₁ : World} {endflag : ℕ} (h : w.conn.Watched)
    (hstate : w.conn.state = .connParseCmd)
    (hhandled : World.Handled (w.logged endflag [0]) (w.tokensAt endflag) w₁)
    (hqueues : ¬OnlyQueues w.cache (w.tokensAt endflag)) :
    (after ((w₁.passLine (endflag + 1)).settle true)).Watched := by
  have hframe := hhandled.framed
  have hlen : w₁.conn.rbuf.length < 2 ^ 31 := by
    rw [hframe.length]
    show (w.conn.rbuf.set _ 0).length < _
    rw [List.length_set]
    exact h.length
  have hlisten : w.conn.Listens := h.reading (.inr (.inr hstate))
  rw [World.settle_of_alone (w := w₁.passLine (endflag + 1)) hframe.flagShake]
  by_cases hclosed : w₁.conn.state = .connClosed
  · rw [if_pos (show (w₁.passLine (endflag + 1)).conn.state = _ from hclosed)]
    exact watched_after ⟨rfl, hlen, fun hs => by simp [World.passLine, World.setStop, hclosed] at hs,
      fun hs => by simp [World.passLine, World.setStop, hclosed] at hs,
      fun hs => by simp [World.passLine, World.setStop, hclosed] at hs⟩
  · rw [if_neg (show (w₁.passLine (endflag + 1)).conn.state ≠ _ from hclosed)]
    refine watched_after_stop hlen (fun hs => ?_) (fun hs => ?_)
    · rcases hhandled.watchers with ⟨-, -, ⟨hw, -, -⟩ | ⟨-, hr, hw⟩⟩ | ⟨hr, hw, -⟩
      · simp [World.passLine, hw] at hs
      · exact ⟨hr.trans hlisten.1, hw.trans hlisten.2⟩
      · exact ⟨hr.trans hlisten.1, hw.trans hlisten.2⟩
    · have hs : w₁.conn.state = .connWrite := hs
      rcases hhandled.watchers with ⟨-, -, ⟨-, hr, hw⟩ | ⟨hst, -, -⟩⟩ |
        ⟨-, -, ⟨-, hq⟩ | hst | hst | hst⟩
      · exact ⟨hr, hw⟩
      · rw [hs] at hst; cases hst
      · exact absurd hq hqueues
      · rw [hs] at hst; cases hst
      · rw [hs] at hst; cases hst
      · rw [hs] at hst
        exact absurd (hst.trans hstate) (by simp)

/-- After a line that something follows the machine goes on. -/
theorem watched_followed {w w₁ w₂ : World} {endflag : ℕ} {next : List UInt8} (h : w.conn.Watched)
    (hstate : w.conn.state = .connParseCmd) (hroom : endflag + 2 ≤ w.conn.rbuf.length)
    (hne : next ≠ [0])
    (hhandled : World.Handled (w.logged endflag next) (w.tokensAt endflag) w₁)
    (hshaken : World.Shaken w₁ (endflag + 1) (w₁.conn.rbufRlen - (endflag + 1)) w₂) :
    (after (w₂.settle true)).Watched := by
  have hframe := hhandled.framed
  have hsame : w₁.conn.rbuf.length = w.conn.rbuf.length :=
    hframe.length.trans (List.length_set ..)
  have hlen := h.length
  have hlisten : w.conn.Listens := h.reading (.inr (.inr hstate))
  have hshake : w₁.conn.flagShake = true := by rw [hframe.flagShake]; exact decide_eq_true hne
  have hstop : w₁.conn.flagStop = false := hframe.flagStop.trans h.stop
  rcases hhandled.watchers with ⟨hz, hr, -⟩ | ⟨hr, hw, hst⟩
  · rw [hr] at hshaken
    have hpos : 0 < endflag + 1 := by omega
    exact absurd (by exact_mod_cast hshaken)
      (World.Shaken.not_cleared hpos (by omega) (by omega) ⟨_, hz⟩)
  · have hl : w₁.conn.Listens := ⟨hr.trans hlisten.1, hw.trans hlisten.2⟩
    rw [World.settle_of_followed]
    · cases hshaken with
      | kept => exact watched_after ⟨hstop, by omega, fun _ => hl, fun _ => .inl hl, fun _ => .inl hl⟩
      | block i hscan hprecmd rnbuf hlive hload hroom =>
        exact watched_after ⟨hstop, by show w₁.conn.rbuf.length < _; omega, fun _ => hl,
          fun _ => .inl hl, fun _ => .inl hl⟩
      | line i hscan hprecmd hload hroom =>
        refine watched_after ⟨hstop, ?_, fun _ => hl, fun _ => .inl hl, fun _ => .inl hl⟩
        show (put w₁.conn.rbuf 0 _).length < _
        rw [length_put, hsame]
        · exact hlen
        · rw [List.length_append, length_slice hload, List.length_singleton]
          omega
    · cases hshaken with
      | kept => exact hshake
      | block => rfl
      | line => rfl
    · cases hshaken with
      | kept => exact hstop
      | block => exact hstop
      | line => exact hstop

theorem watched_parse {w w' : World} (h : w.conn.Watched) (hstate : w.conn.state = .connParseCmd)
    (hqueues : ¬w.Strands) (hturn : w.parseTurn = .ok w') : (after w').Watched := by
  obtain ⟨w₁, ret, hparsed, rfl⟩ := World.parseTurn_spec hturn
  have hlisten : w.conn.Listens := h.reading (.inr (.inr hstate))
  cases hparsed with
  | nothing =>
    rw [World.settle_of_nothing]
    split
    · exact watched_after ⟨h.stop, h.length, fun _ => hlisten, fun _ => .inl hlisten, fun _ => .inl hlisten⟩
    · exact watched_after_stop h.length (fun _ => hlisten) (fun hs => by simp [World.setState] at hs)
  | alone endflag hrlen hscan hroom hnext w₁ hhandled =>
    exact watched_alone h hstate hhandled fun hq => hqueues ⟨hstate, hrlen, endflag, hscan, hnext, hq⟩
  | followed endflag hrlen hscan hroom next hnext hne w₁ w₂ hhandled hshaken =>
    exact watched_followed h hstate hroom hne hhandled hshaken

theorem watched_read {w w' : World} (h : w.conn.Watched) (hstate : w.conn.state = .connRead)
    (hturn : w.readTurn = .ok w') : (after w').Watched := by
  have hlisten : w.conn.Listens := h.reading (.inl hstate)
  have hfetched : ∀ w₁, World.Fetched w w₁ → w₁.conn.flagStop = false ∧
      w₁.conn.rbuf.length < 2 ^ 31 ∧ w₁.conn.Listens := by
    intro w₁ hf
    have hlen := hf.length h.length
    obtain ⟨heap, reads, rbuf, now, rlen, rfl⟩ := hf.world
    exact ⟨h.stop, hlen, hlisten⟩
  rcases World.readTurn_spec hturn with ⟨w₁, hf, hw'⟩ | ⟨w₁, text, hf, rfl⟩
  · obtain ⟨hstop, hlen, hl⟩ := hfetched w₁ hf
    rcases hw' with rfl | rfl | ⟨rfl, -⟩
    all_goals exact watched_after ⟨hstop, hlen, fun _ => hl, fun _ => .inl hl, fun _ => .inl hl⟩
  · obtain ⟨hstop, hlen, hl⟩ := hfetched w₁ hf
    exact watched_after ⟨hstop, hlen, fun _ => hl, fun _ => .inl hl, fun _ => .inl hl⟩

theorem watched_write {w w' : World} (h : w.conn.Watched)
    (hturn : w.writeTurn = .ok w') : (after w').Watched := by
  rcases World.writeTurn_spec hturn with ⟨writes, sent, wlen, now, state, rfl, hst, -⟩ |
    ⟨writes, sent, wbuf, now, len, wlen, rfl⟩
  · rcases hst with rfl | rfl
    · exact watched_after ⟨h.stop, h.length, h.reading, h.nread, h.writing⟩
    · exact watched_after ⟨h.stop, h.length, by simp, by simp, by simp⟩
  · exact watched_after ⟨h.stop, h.length, fun _ => ⟨rfl, rfl⟩, fun _ => .inl ⟨rfl, rfl⟩,
      fun _ => .inl ⟨rfl, rfl⟩⟩

theorem watched_finished {w w' : World} (hstop : w.conn.flagStop = false)
    (hlen : w.conn.rbuf.length < 2 ^ 31) (hstate : w.conn.state = .connNread)
    (hl : w.conn.Listens ∨ (w.conn.cmd = .error ∧ w.conn.rnbufLen = w.conn.rnbufRlen))
    (hfin : World.Finished w w') : (after w').Watched := by
  cases hfin with
  | incomplete =>
    exact watched_after ⟨hstop, hlen, by simp [hstate], fun _ => hl, by simp [hstate]⟩
  | unknown hlens hcmd =>
    exact watched_after ⟨hstop, hlen, by simp [Conn.startWrite, hstate],
      fun _ => .inr ⟨hcmd, hlens⟩, by simp [Conn.startWrite, hstate]⟩
  | stored =>
    refine watched_after ⟨hstop, (length_zeros _).trans_lt hlen, fun hs => ?_, fun hs => ?_,
      fun _ => .inr ⟨rfl, rfl⟩⟩
    · rcases hs with hs | hs | hs <;> cases hs
    · cases hs

theorem watched_nread {w w' : World} (h : w.conn.Watched) (hstate : w.conn.state = .connNread)
    (hturn : w.readValueStored = .ok w') : (after w').Watched := by
  have hl := h.nread hstate
  cases World.readValueStored_spec hturn with
  | shaken hshake w' hfin => exact watched_finished h.stop h.length hstate hl hfin
  | dry => exact watched_after h
  | again => exact watched_after ⟨h.stop, h.length, h.reading, h.nread, h.writing⟩
  | noRoom hshake hlen w' hfin => exact watched_finished h.stop h.length hstate hl hfin
  | failed hshake hlen reads hlt w' hfin =>
    exact watched_finished (w := { w with reads := reads }) h.stop h.length hstate hl hfin
  | closed =>
    exact watched_after ⟨h.stop, h.length, by simp [World.setState], by simp [World.setState],
      by simp [World.setState]⟩
  | part hshake hlen reads hlt rnbuf bs hlive hroom hfit w' hfin =>
    refine watched_finished (w := w.tookPart reads rnbuf bs) h.stop h.length hstate (.inl ?_) hfin
    rcases hl with hl | ⟨-, hl⟩
    · exact hl
    · exact absurd hl hlen
  | nowhere => exact watched_after h

/-- A turn keeps the invariant unless it strands an answer. -/
theorem watched_turn {w w' : World} (h : w.conn.Watched) (hstrands : ¬w.Strands)
    (hturn : w.turn = .ok w') : (after w').Watched := by
  unfold World.turn at hturn
  split at hturn
  · rename_i hstate
    cases hturn
    exact watched_after_stop h.length (by simp [hstate]) (by simp [hstate])
  · rename_i hstate
    exact watched_parse h hstate hstrands hturn
  · rename_i hstate
    exact watched_read h hstate hturn
  · rename_i hstate
    exact watched_write h hturn
  · rename_i hstate
    exact watched_nread h hstate hturn
  · rename_i hstate
    cases hturn
    have hl := h.reading (.inr (.inl hstate))
    exact watched_after_stop h.length (fun _ => hl) (fun hs => by simp [World.setState] at hs)
  · rename_i hstate
    cases hturn
    exact watched_after_stop h.length (by simp [World.connClose, hstate]) (by simp [World.connClose, hstate])

/-- A stranded answer: the machine returns with its text queued and listens. -/
theorem not_wakeful_of_strands {w w' : World} (h : w.conn.Watched) (hstrands : w.Strands)
    (hturn : w.turn = .ok w') : ¬(after w').Wakeful := by
  obtain ⟨hstate, hrlen, endflag, hscan, hnext, hqueues⟩ := hstrands
  have hlisten : w.conn.Listens := h.reading (.inr (.inr hstate))
  have hparse : w.parseTurn = .ok w' := by simpa only [World.turn, hstate] using hturn
  obtain ⟨w₁, ret, hparsed, rfl⟩ := World.parseTurn_spec hparse
  cases hparsed with
  | nothing hzero => exact absurd hzero hrlen
  | followed endflag' hrlen' hscan' hroom next hnext' hne =>
    rw [hscan] at hscan'
    cases hscan'
    exact absurd (hnext'.symm.trans hnext) hne
  | alone endflag' hrlen' hscan' hroom hnext' w₁ hhandled =>
    rw [hscan] at hscan'
    cases hscan'
    have hst : w₁.conn.state = .connWrite ∧ w₁.conn.writeWatcher = w.conn.writeWatcher :=
      hhandled.queues hqueues
    rw [World.settle_of_alone (w := w₁.passLine (endflag + 1)) hhandled.framed.flagShake,
      if_neg (show ¬(w₁.passLine (endflag + 1)).conn.state = .connClosed from fun e => by
        rw [show w₁.conn.state = _ from e] at hst; simp at hst)]
    unfold after
    rw [if_pos (by rfl)]
    intro hwake
    have harmed : w₁.conn.writeWatcher = true :=
      (hwake rfl (show w₁.conn.state ≠ _ by rw [hst.1]; simp)).1 hst.1
    rw [hst.2, hlisten.2] at harmed
    cases harmed

theorem watched_step {s s' : Serving} {a : Happening} (h : s.Watched)
    (hstrands : a = .turn → s.running = true → ¬s.world.Strands) (hstep : step s a = .ok s') :
    s'.Watched := by
  cases a with
  | event watcher reads writes =>
    simp only [step] at hstep
    split at hstep
    · cases hstep
      exact h
    · cases hstep
      exact ⟨⟨h.conn.stop, h.conn.length, h.conn.reading, h.conn.nread, h.conn.writing⟩,
        fun hr => absurd hr (by simp), fun hr => absurd hr (by simp)⟩
  | turn =>
    simp only [step] at hstep
    split at hstep
    · rename_i hrun
      obtain ⟨w', hturn, hstep⟩ := Result.bind_eq_ok.mp hstep
      cases hstep
      exact watched_turn h.conn (hstrands rfl hrun) hturn
    · cases hstep
      exact h
  | others cache =>
    cases hstep
    exact ⟨⟨h.conn.stop, h.conn.length, h.conn.reading, h.conn.nread, h.conn.writing⟩,
      h.nread, h.writing⟩

theorem watched_start {w : World} {flagPrecmd flagShake noreply : Bool} {rbuf wbuf : List UInt8}
    {cas : UInt64} (hrbuf : rbuf.length = READBUF_LEN)
    (hw : w.conn = Conn.new flagPrecmd flagShake noreply rbuf wbuf cas) : (start w).Watched := by
  have hconn : w.conn.Watched := by
    rw [hw]
    refine ⟨rfl, ?_, fun _ => ⟨rfl, rfl⟩, fun h => (by cases h), fun h => (by cases h)⟩
    show rbuf.length < _
    rw [hrbuf]
    decide
  exact ⟨hconn, fun _ h => absurd h (by simp [start, hw, Conn.new]),
    fun _ h => absurd h (by simp [start, hw, Conn.new])⟩

/-- Whatever the requests, the reads and the writes: the connection will be woken up in
every state in which the machine has returned just when no turn strands an answer. -/
theorem wakeful_throughout (w : World) (flagPrecmd flagShake noreply : Bool)
    (rbuf wbuf : List UInt8) (cas : UInt64) (hrbuf : rbuf.length = READBUF_LEN)
    (hw : w.conn = Conn.new flagPrecmd flagShake noreply rbuf wbuf cas) (as : List Happening)
    (t : Serving) (hrun : run step (start w) as = .ok t) :
    Throughout step Wakeful (start w) as ↔
      EachStep step (fun s a => a = .turn → s.running = true → ¬s.world.Strands) (start w) as := by
  refine throughout_iff_eachStep (I := fun s _ => s.Watched) (L := fun s a => ∃ s', step s a = .ok s')
    (fun s a as s' hs _ hc hstep => watched_step hs hc hstep) (fun s as hs => hs.wakeful) ?_
    (watched_start hrbuf hw) (eachStep_ok hrun)
  rintro s a as hs ⟨s', hstep⟩ hbad
  simp only [Classical.not_imp, not_not] at hbad
  obtain ⟨rfl, hrunning, hstrands⟩ := hbad
  refine ⟨s', hstep, ?_⟩
  simp only [step, hrunning, if_true] at hstep
  obtain ⟨w', hturn, hstep⟩ := Result.bind_eq_ok.mp hstep
  cases hstep
  exact not_wakeful_of_strands hs.conn hstrands hturn

/-! ### A connection of a small server -/

/-- A connection that was just made, with zeros in its buffers. -/
def fresh (s : Cache) : World where
  conn := Conn.new false false false (zeros READBUF_LEN) (zeros WRITEBUF_LEN) 0
  cache := s
  reads := []
  writes := []
  sent := []
  heap := { calls := 0, garbage := fun _ _ => 0, allocOk := fun _ => true }
  deeds := []

theorem init_small : ∃ s, Cache.init 1 Service.smallSettings (fun _ => true) 0 = some s := by
  have hsome : (Cache.init 1 Service.smallSettings (fun _ => true) 0).isSome = true := by decide +kernel
  exact Option.isSome_iff_exists.mp hsome

/-- A run of such a connection. -/
def trial (as : List Happening) : Option Serving :=
  (Cache.init 1 Service.smallSettings (fun _ => true) 0).bind fun s =>
    (run step (start (fresh s)) as).toOption

theorem exists_of_trial {as : List Happening} {p : Serving → Bool} (h : (trial as).any p = true) :
    ∃ s t, Cache.init 1 Service.smallSettings (fun _ => true) 0 = some s ∧
      run step (start (fresh s)) as = .ok t ∧ p t = true := by
  rw [trial, Option.any_bind] at h
  obtain ⟨s, hs, h⟩ := Service.exists_init h
  cases ht : run step (start (fresh s)) as with
  | error e => simp [ht, Except.toOption] at h
  | ok t => exact ⟨s, t, hs, ht, by simpa [ht, Except.toOption] using h⟩

/-- One read brings these bytes, and the machine takes two turns. -/
def oneLine (bs : List UInt8) : List Happening := [.event .read [.data bs] [], .turn, .turn]

/-- A run of such a connection, from a cache for which something can be computed. -/
theorem exists_of_check {as : List Happening} {p : Cache → Bool}
    (h : (Cache.init 1 Service.smallSettings (fun _ => true) 0).any (fun s =>
      p s && (run step (start (fresh s)) as).toOption.isSome) = true) :
    ∃ s t, Cache.init 1 Service.smallSettings (fun _ => true) 0 = some s ∧
      run step (start (fresh s)) as = .ok t ∧ p s = true := by
  obtain ⟨s, hs, h⟩ := Service.exists_init h
  obtain ⟨hp, hrun⟩ := (Bool.and_eq_true_iff ..).mp h
  obtain ⟨t, ht⟩ := Option.isSome_iff_exists.mp hrun
  exact ⟨s, t, hs, Result.eq_ok_of_toOption ht, hp⟩

theorem wakeful_version : ∃ s, Cache.init 1 Service.smallSettings (fun _ => true) 0 = some s ∧
    Throughout step Wakeful (start (fresh s)) (oneLine (bytes "version\r\n")) := by
  have htrial : (Cache.init 1 Service.smallSettings (fun _ => true) 0).any (fun s =>
      decide (EachStep step (fun s a => a = .turn → s.running = true → ¬s.world.Strands) (start (fresh s))
        (oneLine (bytes "version\r\n"))) &&
      (run step (start (fresh s)) (oneLine (bytes "version\r\n"))).toOption.isSome) = true := by
    decide +kernel
  obtain ⟨s, t, hinit, hrun, hcalm⟩ := exists_of_check htrial
  exact ⟨s, hinit, (wakeful_throughout (fresh s) false false false _ _ 0 (length_zeros _) rfl _ t hrun).mpr
    (of_decide_eq_true hcalm)⟩

/-- The answer to a `get` of a key of 251 bytes is stranded. -/
theorem not_wakeful_longKey : ∃ s, Cache.init 1 Service.smallSettings (fun _ => true) 0 = some s ∧
    ¬Throughout step Wakeful (start (fresh s))
      (oneLine (bytes "get " ++ List.replicate 251 97 ++ crlf)) := by
  have htrial : (trial (oneLine (bytes "get " ++ List.replicate 251 97 ++ crlf))).any (fun t =>
      decide (t.running = false) && decide (t.world.conn.state = .connWrite) &&
        decide (t.world.conn.writeWatcher = false)) = true := by decide +kernel
  obtain ⟨s, t, hinit, hrun, hp⟩ := exists_of_trial htrial
  simp only [Bool.and_eq_true, decide_eq_true_eq] at hp
  obtain ⟨⟨hrest, hstate⟩, hwatcher⟩ := hp
  refine ⟨s, hinit, fun h => ?_⟩
  have harmed := (h.last hrun hrest (by rw [hstate]; simp)).1 hstate
  rw [hwatcher] at harmed
  cases harmed

end Serving

end MiniMemcached
