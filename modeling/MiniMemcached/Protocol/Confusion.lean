import MiniMemcached.Protocol.Shaking

/-! Data and lines. An observer of a connection keeps what the last line makes of the bytes
that follow it: a block, when it was a storage command that left the connection in
`conn_nread`, and the block of nobody, when it was refused. `conn_shake` goes by
`flag_precmd` instead, which is set by any line of five fields and by none of six. -/

namespace MiniMemcached

open Memory Runs

/-- A storage command, by its fields and its verb. -/
def IsStorage (tokens : List (List UInt8)) : Prop :=
  (tokens.length = 5 ∨ tokens.length = 6) ∧ nreadStatSet (tokens.getD 0 []) ≠ .error

instance (tokens : List (List UInt8)) : Decidable (IsStorage tokens) := by
  unfold IsStorage
  infer_instance

/-- The bytes of the data block that such a line announces, its CRLF included. -/
def announced (tokens : List (List UInt8)) : ℕ :=
  (safeStrtol (tokens.getD 4 [])).elim 0 fun vlen => if vlen < 0 then 0 else (vlen + 2).toNat

/-- A line of five or six fields that is given an item. -/
def Accepts (s : Cache) (tokens : List (List UInt8)) : Prop :=
  (tokens.length = 5 ∨ tokens.length = 6) ∧
    ∃ L, parseStoreLine tokens (decide (tokens.length = 6)) = some L ∧
      ∃ s' it, s.allocLine L = .ok (s', some it)

instance (r : Result (Cache × Option Ptr)) : Decidable (∃ s it, r = .ok (s, some it)) :=
  match r with
  | .ok (s, some it) => isTrue ⟨s, it, rfl⟩
  | .ok (_, none) => isFalse (by rintro ⟨s, it, h⟩; cases h)
  | .error _ => isFalse (by rintro ⟨s, it, h⟩; cases h)

instance (o : Option StoreLine) (P : StoreLine → Prop) [DecidablePred P] :
    Decidable (∃ L, o = some L ∧ P L) :=
  match o with
  | none => isFalse (by simp)
  | some L => decidable_of_iff (P L) (by simp)

instance (s : Cache) (tokens : List (List UInt8)) : Decidable (Accepts s tokens) := by
  unfold Accepts
  infer_instance

/-- A line that a turn has run: its tokens, what its handler left, and whether bytes stand
behind it in the buffer. -/
structure Ran where
  tokens : List (List UInt8)
  left : World
  behind : Bool

/-- The line that the next turn runs. -/
def World.ran (w : World) : Option Ran :=
  if w.conn.state = .connParseCmd ∧ w.conn.rbufRlen ≠ 0 then
    match memchr w.conn.rbuf 0 (toSizeT w.conn.rbufRlen) 10 with
    | .found e =>
      ((w.cutLine e (slice w.conn.rbuf (e + 1) 1)).processCommand).toOption.map fun left =>
        ⟨w.tokensAt e, left, decide ((e : ℤ) + 1 < w.conn.rbufRlen)⟩
    | _ => none
  else none

/-- The line was a storage command that left the connection in `conn_nread`. -/
def Ran.Stores (r : Ran) : Prop := IsStorage r.tokens ∧ r.left.conn.state = .connNread

instance (r : Ran) : Decidable r.Stores := by
  unfold Ran.Stores
  infer_instance

/-- A connection and its observer: whether the last line was a storage command that left the
connection in `conn_nread` and still waits for its data, how many bytes it announced when
it was refused, whether bytes behind a line were taken for a block where that line was no
such command, or not taken where it was, and whether a line was run while the block of a
refused one was to come. -/
structure Hearing where
  serving : Serving
  waiting : Bool
  owed : ℕ
  misread : Bool
  spoiled : Bool

namespace Hearing

/-- The line that this step runs. -/
def ran (h : Hearing) : Happening → Option Ran
  | .turn => if h.serving.running then h.serving.world.ran else none
  | _ => none

/-- The observer after a step that led to `s`. A block that was taken behind the line of
the step stands in the history behind what its handler left. -/
def note (h : Hearing) (s : Serving) : Option Ran → Hearing
  | some r =>
    { serving := s
      waiting := decide r.Stores
      owed := if IsStorage r.tokens ∧ ¬r.Stores then announced r.tokens else 0
      misread := h.misread ||
        r.behind && (decide (r.left.deeds.length < s.world.deeds.length) != decide r.Stores)
      spoiled := h.spoiled || decide (0 < h.owed) }
  | none => { h with serving := s, waiting := h.waiting && decide (s.world.conn.state = .connNread) }

def step (h : Hearing) (a : Happening) : Result Hearing :=
  h.serving.step a >>= fun s => .ok (h.note s (h.ran a))

/-- An observer of a connection that was just made. -/
def start (w : World) : Hearing := ⟨Serving.start w, false, 0, false, false⟩

/-- The connection takes bytes for a block just where the last line was a storage command
that waits for its data, and no block of a refused line was run as a line. -/
structure Apart (h : Hearing) : Prop where
  waits : h.serving.world.conn.state = .connNread ↔ h.waiting = true
  misread : h.misread = false
  spoiled : h.spoiled = false

instance (h : Hearing) : Decidable h.Apart :=
  decidable_of_iff ((h.serving.world.conn.state = .connNread ↔ h.waiting = true) ∧
      h.misread = false ∧ h.spoiled = false)
    ⟨fun ⟨h₁, h₂, h₃⟩ => ⟨h₁, h₂, h₃⟩, fun ⟨h₁, h₂, h₃⟩ => ⟨h₁, h₂, h₃⟩⟩

end Hearing

namespace World

/-- The line that ends at `e` cannot be mistaken: no block that it announces is refused, it
is given no item when its verb is unknown, and of the bytes behind it, unless its handler
clears them, `flag_precmd` and a carriage return tell what the line does. -/
structure Unmistakable (w : World) (e : ℕ) : Prop where
  kept : IsStorage (w.tokensAt e) → 0 < announced (w.tokensAt e) → Accepts w.cache (w.tokensAt e)
  known : Accepts w.cache (w.tokensAt e) → IsStorage (w.tokensAt e)
  behind : (e : ℤ) + 1 < w.conn.rbufRlen → ¬Clears (w.tokensAt e) →
    (Accepts w.cache (w.tokensAt e) ↔ slice w.conn.rbuf (e + 1) 1 ≠ [0] ∧
      ((w.tokensAt e).length = 5 ∨ w.conn.flagPrecmd = true) ∧
      ∃ i, memchr w.conn.rbuf (e + 1) (toSizeT (w.conn.rbufRlen - (e + 1))) 13 = .found i)

/-- So it is with the line, if there is one, that the next turn runs. -/
def PlainlyNext (w : World) : Prop :=
  w.conn.state = .connParseCmd → w.conn.rbufRlen ≠ 0 →
    ∀ e, memchr w.conn.rbuf 0 (toSizeT w.conn.rbufRlen) 10 = .found e → w.Unmistakable e

instance (w : World) (e : ℕ) : Decidable (w.Unmistakable e) :=
  decidable_of_iff (_ ∧ _ ∧ _) ⟨fun ⟨h₁, h₂, h₃⟩ => ⟨h₁, h₂, h₃⟩, fun ⟨h₁, h₂, h₃⟩ => ⟨h₁, h₂, h₃⟩⟩

instance (r : Memory.Scan) (P : ℕ → Prop) [DecidablePred P] : Decidable (∀ e, r = .found e → P e) :=
  match r with
  | .found e => decidable_of_iff (P e) (by simp)
  | .missing => isTrue (by simp)
  | .outside => isTrue (by simp)

instance (w : World) : Decidable w.PlainlyNext := by
  unfold PlainlyNext
  infer_instance

/-- A handler leaves the connection in `conn_nread` just when it gives the line an item. -/
theorem Handled.nread_iff {w w' : World} {tokens : List (List UInt8)} (h : Handled w tokens w')
    (hstate : w.conn.state = .connParseCmd) : w'.conn.state = .connNread ↔ Accepts w.cache tokens := by
  cases h with
  | accepted L s it hlen hparse halloc => exact iff_of_true rfl ⟨hlen, L, hparse, s, it, halloc⟩
  | badFormat hlen hparse =>
    refine iff_of_false nofun ?_
    rintro ⟨-, L, hL, -⟩
    rw [hparse] at hL
    cases hL
  | noMemory L s s' item text hlen hparse halloc =>
    refine iff_of_false nofun ?_
    rintro ⟨-, L', hL, s'', it, hsome⟩
    rw [hparse] at hL
    cases hL
    rw [show w.cache.allocLine L = .ok (s, none) from halloc] at hsome
    cases hsome
  | answered s text hlen =>
    refine iff_of_false nofun ?_
    rintro ⟨hlen', -⟩
    omega
  | value s it hlen =>
    refine iff_of_false nofun ?_
    rintro ⟨hlen', -⟩
    omega
  | longKey hlong =>
    refine iff_of_false nofun ?_
    rintro ⟨hlen', -⟩
    have := hlong.1
    omega
  | quit hlen =>
    refine iff_of_false nofun ?_
    rintro ⟨hlen', -⟩
    omega
  | ignored hlen =>
    refine iff_of_false (fun hn => ?_) ?_
    · rw [hstate] at hn
      cases hn
    · rintro ⟨hlen', -⟩
      omega
  | empty hlen =>
    refine iff_of_false nofun ?_
    rintro ⟨hlen', -⟩
    simp only [List.mem_cons, List.not_mem_nil, or_false, not_or] at hlen
    omega

/-- The ways of a turn that parses, with the line that it runs. -/
inductive ParseTurn (w : World) : World → Option Ran → Prop
  | nothing : ParseTurn w (w.settle false) none
  | alone (e : ℕ) (hrlen : w.conn.rbufRlen ≠ 0)
      (hscan : memchr w.conn.rbuf 0 (toSizeT w.conn.rbufRlen) 10 = .found e)
      (hnext : slice w.conn.rbuf (e + 1) 1 = [0]) (w₁ : World)
      (hhandled : Handled (w.logged e [0]) (w.tokensAt e) w₁) :
      ParseTurn w ((w₁.passLine (e + 1)).settle true)
        (some ⟨w.tokensAt e, w₁, decide ((e : ℤ) + 1 < w.conn.rbufRlen)⟩)
  | followed (e : ℕ) (hrlen : w.conn.rbufRlen ≠ 0)
      (hscan : memchr w.conn.rbuf 0 (toSizeT w.conn.rbufRlen) 10 = .found e)
      (hroom : e + 2 ≤ w.conn.rbuf.length) (hne : slice w.conn.rbuf (e + 1) 1 ≠ [0]) (w₁ w₂ : World)
      (hhandled : Handled (w.logged e (slice w.conn.rbuf (e + 1) 1)) (w.tokensAt e) w₁)
      (hshaken : Shaken w₁ (e + 1) (w₁.conn.rbufRlen - (e + 1)) w₂) :
      ParseTurn w (w₂.settle true) (some ⟨w.tokensAt e, w₁, decide ((e : ℤ) + 1 < w.conn.rbufRlen)⟩)

theorem parseTurn_ran {w w' : World} (hstate : w.conn.state = .connParseCmd) (h : w.parseTurn = .ok w') :
    w.ParseTurn w' w.ran := by
  obtain ⟨⟨w₁, ret⟩, hread, h⟩ := Result.bind_eq_ok.mp h
  cases h
  unfold ran
  simp only [hstate, true_and]
  unfold tryReadCommand at hread
  by_cases hrlen : w.conn.rbufRlen = 0
  · rw [if_pos hrlen] at hread
    rw [if_neg (not_not.mpr hrlen)]
    cases hread
    exact .nothing
  · rw [if_neg hrlen] at hread
    rw [if_pos hrlen]
    split at hread
    · cases hread
    · cases hread
    · rename_i e hscan
      obtain ⟨next, hload, hread⟩ := Result.bind_eq_ok.mp hread
      obtain ⟨hroom, rfl⟩ := load_eq_ok.mp hload
      obtain ⟨w₂, hproc, hread⟩ := Result.bind_eq_ok.mp hread
      simp only [hscan, hproc, Except.toOption, Option.map_some]
      have hhandled : Handled (w.logged e (slice w.conn.rbuf (e + 1) 1)) (w.tokensAt e) w₂ :=
        dispatch_spec hproc
      have hflag : w₂.conn.flagShake = decide (slice w.conn.rbuf (e + 1) 1 ≠ [0]) :=
        hhandled.framed.flagShake
      split at hread
      · rename_i hshake
        obtain ⟨w₃, hsh, hread⟩ := Result.bind_eq_ok.mp hread
        cases hread
        exact .followed e hrlen hscan (by omega) (by simpa [hflag] using hshake) w₂ _ hhandled
          (connShake_spec hsh)
      · rename_i hshake
        cases hread
        have hnext : slice w.conn.rbuf (e + 1) 1 = [0] := by simpa [hflag] using hshake
        exact .alone e hrlen hscan hnext w₂ (hnext ▸ hhandled)

theorem settle_state (w : World) : (w.settle true).conn.state = w.conn.state := by
  unfold settle
  simp only [if_true]
  split_ifs <;> rfl

theorem settle_deeds (w : World) : (w.settle true).deeds = w.deeds := by
  unfold settle
  dsimp only
  split_ifs <;> rfl

/-- No carriage return is found among no bytes. -/
theorem memchr_nothing {b : List UInt8} {off i : ℕ} {c : UInt8} : memchr b off 0 c ≠ .found i := by
  intro h
  have := memchr_found h
  omega

/-- Nothing is done behind a line whose handler has cleared the buffer. -/
theorem Handled.not_shaken {w w₁ w₂ : World} {e : ℕ} {next : List UInt8} (hw : w.conn.Held)
    (hroom : e + 2 ≤ w.conn.rbuf.length) (h : Handled (w.logged e next) (w.tokensAt e) w₁)
    (hclears : Clears (w.tokensAt e)) : ¬Shaken w₁ (e + 1) (w₁.conn.rbufRlen - (e + 1)) w₂ := by
  have hsame : w₁.conn.rbuf.length = w.conn.rbuf.length := h.framed.length.trans (List.length_set ..)
  have hlen := hw.length
  have hpos : 0 < e + 1 := by omega
  have hbuf : w₁.conn.rbuf = zeros (w.logged e next).conn.rbuf.length ∧ w₁.conn.rbufRlen = 0 := by
    unfold Clears at hclears
    cases h
    case answered => exact ⟨rfl, rfl⟩
    case value => exact ⟨rfl, rfl⟩
    case empty => exact ⟨rfl, rfl⟩
    case longKey hlong => simp [hlong.1, hlong] at hclears
    case badFormat hlen _ => rcases hlen with hlen | hlen <;> simp [hlen] at hclears
    case noMemory hlen _ _ => rcases hlen with hlen | hlen <;> simp [hlen] at hclears
    case accepted hlen _ _ => rcases hlen with hlen | hlen <;> simp [hlen] at hclears
    case quit hlen hquit =>
      simp only [hlen] at hclears
      exact absurd hquit hclears
    case ignored hlen => simp [hlen] at hclears
  rw [hbuf.2]
  exact_mod_cast Shaken.not_cleared hpos (by omega) (by omega) ⟨_, hbuf.1⟩

/-- What is behind a line that cannot be mistaken is taken for a block just when the line
waits for one, and the connection is left to wait for it just then. -/
theorem Shaken.unmistakable {w w₁ w₂ : World} {e : ℕ} (hw : w.conn.Held)
    (hstate : w.conn.state = .connParseCmd) (hplain : w.Unmistakable e)
    (hscan : memchr w.conn.rbuf 0 (toSizeT w.conn.rbufRlen) 10 = .found e)
    (hroom : e + 2 ≤ w.conn.rbuf.length) (hne : slice w.conn.rbuf (e + 1) 1 ≠ [0])
    (hhandled : Handled (w.logged e (slice w.conn.rbuf (e + 1) 1)) (w.tokensAt e) w₁)
    (h : Shaken w₁ (e + 1) (w₁.conn.rbufRlen - (e + 1)) w₂) :
    (w₂.conn.state = .connNread ↔ Accepts w.cache (w.tokensAt e)) ∧
      ((e : ℤ) + 1 < w.conn.rbufRlen →
        (w₁.deeds.length < w₂.deeds.length ↔ Accepts w.cache (w.tokensAt e))) := by
  have hnread : w₁.conn.state = .connNread ↔ Accepts w.cache (w.tokensAt e) := hhandled.nread_iff hstate
  rcases hhandled.lengths with ⟨hclears, -⟩ | ⟨hkeeps, hrbuf, hrlen, hflag, -⟩
  · exact absurd h (hhandled.not_shaken hw hroom hclears)
  · have hrlen : w₁.conn.rbufRlen = w.conn.rbufRlen := hrlen
    have hflag : w₁.conn.flagPrecmd = (decide ((w.tokensAt e).length = 5) || w.conn.flagPrecmd) := hflag
    have hline := line_le hw hscan
    rw [hrlen] at h
    have hfollows : ∀ i, memchr w₁.conn.rbuf (e + 1) (toSizeT (w.conn.rbufRlen - (e + 1))) 13 = .found i →
        (e : ℤ) + 1 < w.conn.rbufRlen := by
      intro i hi
      by_contra hno
      rw [show w.conn.rbufRlen - (e + 1) = 0 by omega] at hi
      exact memchr_nothing hi
    cases h with
    | kept hscan' =>
      refine ⟨hnread, fun hbehind => iff_of_false (lt_irrefl _) fun haccepts => ?_⟩
      obtain ⟨-, -, i, hi⟩ := (hplain.behind hbehind hkeeps).mp haccepts
      rw [← Followed.scan_behind hrbuf, hscan'] at hi
      cases hi
    | block i hscan' hprecmd rnbuf hlive hload hroom' =>
      have haccepts : Accepts w.cache (w.tokensAt e) := by
        refine (hplain.behind (hfollows i hscan') hkeeps).mpr ⟨hne, ?_, i, ?_⟩
        · rw [hflag] at hprecmd
          simpa using hprecmd
        · rw [← Followed.scan_behind hrbuf]
          exact hscan'
      exact ⟨iff_of_true rfl haccepts, fun _ => iff_of_true (by simp [tookBlock]) haccepts⟩
    | line i hscan' hprecmd hload hroom' =>
      have hno : ¬Accepts w.cache (w.tokensAt e) := by
        intro haccepts
        obtain ⟨-, hmark, -⟩ := (hplain.behind (hfollows i hscan') hkeeps).mp haccepts
        rw [hflag] at hprecmd
        simp only [Bool.or_eq_false_iff, decide_eq_false_iff_not] at hprecmd
        rcases hmark with hmark | hmark
        · exact hprecmd.1 hmark
        · rw [hmark] at hprecmd
          cases hprecmd.2
      exact ⟨iff_of_false nofun hno, fun _ => iff_of_false (lt_irrefl _) hno⟩

/-- A line that has been run is a storage line with a block to come if it is accepted. -/
theorem Ran.stores_iff {w w₁ : World} {tokens : List (List UInt8)} {behind : Bool}
    (hknown : Accepts w.cache tokens → IsStorage tokens)
    (hnread : w₁.conn.state = .connNread ↔ Accepts w.cache tokens) :
    (⟨tokens, w₁, behind⟩ : Ran).Stores ↔ Accepts w.cache tokens :=
  ⟨fun h => hnread.mp h.2, fun h => ⟨hknown h, hnread.mpr h⟩⟩

/-- A turn runs a line that cannot be mistaken. -/
theorem ParseTurn.unmistakable {w w' : World} {r : Ran} (hw : w.conn.Held)
    (hstate : w.conn.state = .connParseCmd) (hplain : w.PlainlyNext) (h : w.ParseTurn w' (some r)) :
    (w'.conn.state = .connNread ↔ r.Stores) ∧
      (r.behind = true → (r.left.deeds.length < w'.deeds.length ↔ r.Stores)) ∧
      (IsStorage r.tokens → ¬r.Stores → announced r.tokens = 0) := by
  generalize hr : some r = o at h
  cases h with
  | nothing => cases hr
  | alone e hrlen hscan hnext w₁ hhandled =>
    cases hr
    have hline := hplain hstate hrlen e hscan
    have hnread : w₁.conn.state = .connNread ↔ Accepts w.cache (w.tokensAt e) := hhandled.nread_iff hstate
    rw [settle_state, settle_deeds, Ran.stores_iff hline.known hnread]
    refine ⟨hnread, fun hbehind => iff_of_false (lt_irrefl _) fun haccepts => ?_, fun hstorage hno => ?_⟩
    · have hkeeps : ¬Clears (w.tokensAt e) := by
        unfold Clears
        rcases haccepts.1 with hlen | hlen <;> simp [hlen]
      exact ((hline.behind (of_decide_eq_true hbehind) hkeeps).mp haccepts).1 hnext
    · by_contra hpos
      exact hno (hline.kept hstorage (Nat.pos_of_ne_zero hpos))
  | followed e hrlen hscan hroom hne w₁ w₂ hhandled hshaken =>
    cases hr
    have hline := hplain hstate hrlen e hscan
    have hnread : w₁.conn.state = .connNread ↔ Accepts w.cache (w.tokensAt e) := hhandled.nread_iff hstate
    obtain ⟨hwaits, htaken⟩ := hshaken.unmistakable hw hstate hline hscan hroom hne hhandled
    rw [settle_state, settle_deeds, Ran.stores_iff hline.known hnread]
    refine ⟨hwaits, fun hbehind => htaken (of_decide_eq_true hbehind), fun hstorage hno => ?_⟩
    by_contra hpos
    exact hno (hline.kept hstorage (Nat.pos_of_ne_zero hpos))

theorem settle_nothing_state (w : World) : (w.settle false).conn.state = .connWaiting := by
  unfold settle setState setStop
  dsimp only
  split_ifs <;> simp_all

/-- No other turn brings the connection to wait for a block. -/
theorem nread_of_turn {w w' : World} (hstate : w.conn.state ≠ .connParseCmd) (h : w.turn = .ok w')
    (hnread : w'.conn.state = .connNread) : w.conn.state = .connNread := by
  unfold turn at h
  split at h
  · rename_i hlisten
    cases h
    exact hnread
  · rename_i hparse
    exact absurd hparse hstate
  · rcases readTurn_spec h with ⟨w₁, -, rfl | rfl | ⟨rfl, -⟩⟩ | ⟨w₁, text, -, rfl⟩
    all_goals cases hnread
  · rename_i hwrite
    rcases writeTurn_spec h with ⟨_, _, _, _, state, rfl, hkept | hclosed, -⟩ | ⟨_, _, _, _, _, _, rfl⟩
    · exact hkept.symm.trans hnread
    · cases hclosed.symm.trans hnread
    · cases hnread
  · assumption
  · cases h
    cases hnread
  · rename_i hclosed
    cases h
    exact hnread

end World

namespace Hearing

open Serving (fresh oneLine)

/-- What the observer relies on from step to step. -/
structure Unmistaken (h : Hearing) : Prop where
  apart : h.Apart
  owed : h.owed = 0
  held : h.serving.world.conn.Held

/-- A step that runs no line. -/
theorem Unmistaken.idle {h : Hearing} {s : Serving} (hh : h.Unmistaken) (hheld : s.world.conn.Held)
    (hnread : s.world.conn.state = .connNread → h.serving.world.conn.state = .connNread) :
    (h.note s none).Unmistaken := by
  refine ⟨⟨?_, hh.apart.misread, hh.apart.spoiled⟩, hh.owed, hheld⟩
  show s.world.conn.state = .connNread ↔ (h.waiting && decide (s.world.conn.state = .connNread)) = true
  rw [Bool.and_eq_true, decide_eq_true_eq]
  exact ⟨fun hs => ⟨hh.apart.waits.mp (hnread hs), hs⟩, fun hs => hs.2⟩

theorem after_conn (w : World) : ∃ b, (Serving.after w).world.conn = { w.conn with flagStop := b } ∧
    (Serving.after w).world.deeds = w.deeds := by
  unfold Serving.after
  split
  · exact ⟨false, rfl, rfl⟩
  · exact ⟨w.conn.flagStop, rfl, rfl⟩

/-- A step that runs a line which cannot be mistaken. -/
theorem Unmistaken.line {h : Hearing} {s : Serving} {w' : World} {r : Ran} (hh : h.Unmistaken)
    (hheld : s.world.conn.Held) (hstate : h.serving.world.conn.state = .connParseCmd)
    (hplain : h.serving.world.PlainlyNext) (hturn : h.serving.world.ParseTurn w' (some r))
    (hs : s = Serving.after w') : (h.note s (some r)).Unmistaken := by
  obtain ⟨hwaits, htaken, hrefused⟩ := hturn.unmistakable hh.held hstate hplain
  obtain ⟨b, hconn, hdeeds⟩ := after_conn w'
  subst hs
  refine ⟨⟨?_, ?_, ?_⟩, ?_, hheld⟩
  · show (Serving.after w').world.conn.state = .connNread ↔ decide r.Stores = true
    rw [hconn, decide_eq_true_eq]
    exact hwaits
  · show (h.misread || r.behind && (decide (r.left.deeds.length < (Serving.after w').world.deeds.length) !=
      decide r.Stores)) = false
    rw [hh.apart.misread, Bool.false_or, hdeeds]
    cases hbehind : r.behind with
    | false => rfl
    | true => simp [htaken hbehind]
  · show (h.spoiled || decide (0 < h.owed)) = false
    rw [hh.apart.spoiled, hh.owed]
    rfl
  · show (if IsStorage r.tokens ∧ ¬r.Stores then announced r.tokens else 0) = 0
    split
    · rename_i hno
      exact hrefused hno.1 hno.2
    · rfl

/-- A turn runs no line that can be mistaken. -/
def Plainly (h : Hearing) (a : Happening) : Prop :=
  a = .turn → h.serving.running = true → h.serving.world.PlainlyNext

instance (h : Hearing) (a : Happening) : Decidable (h.Plainly a) := by
  unfold Plainly
  infer_instance

theorem Unmistaken.step {h h' : Hearing} {a : Happening} (hh : h.Unmistaken) (hplain : h.Plainly a)
    (hstep : h.step a = .ok h') : h'.Unmistaken := by
  obtain ⟨s, hs, hstep⟩ := Result.bind_eq_ok.mp hstep
  cases hstep
  have hheld : s.world.conn.Held := Serving.held_step hh.held hs
  cases a with
  | event watcher reads writes =>
    refine hh.idle hheld fun hn => ?_
    simp only [Serving.step] at hs
    split at hs <;> cases hs <;> exact hn
  | others cache =>
    refine hh.idle hheld fun hn => ?_
    cases hs
    exact hn
  | turn =>
    unfold ran
    by_cases hrun : h.serving.running = true
    · simp only [Serving.step, hrun, if_true] at hs ⊢
      obtain ⟨w', hturn, hs⟩ := Result.bind_eq_ok.mp hs
      cases hs
      obtain ⟨b, hconn, -⟩ := after_conn w'
      by_cases hstate : h.serving.world.conn.state = .connParseCmd
      · have hparse : h.serving.world.parseTurn = .ok w' := by
          simpa only [World.turn, hstate] using hturn
        have hran := World.parseTurn_ran hstate hparse
        cases hr : h.serving.world.ran with
        | some r =>
          rw [hr] at hran
          exact hh.line hheld hstate (hplain rfl hrun) hran rfl
        | none =>
          rw [hr] at hran
          cases hran
          refine hh.idle hheld fun hn => ?_
          rw [hconn] at hn
          cases (World.settle_nothing_state _).symm.trans hn
      · have hnone : h.serving.world.ran = none := if_neg fun hno => hstate hno.1
        rw [hnone]
        refine hh.idle hheld fun hn => World.nread_of_turn hstate hturn ?_
        rw [hconn] at hn
        exact hn
    · simp only [Serving.step, hrun] at hs ⊢
      cases hs
      exact hh.idle hheld id

theorem unmistaken_start {w : World} {flagPrecmd flagShake noreply : Bool} {rbuf wbuf : List UInt8}
    {cas : UInt64} (hrbuf : rbuf.length = READBUF_LEN)
    (hw : w.conn = Conn.new flagPrecmd flagShake noreply rbuf wbuf cas) : (start w).Unmistaken := by
  refine ⟨⟨?_, rfl, rfl⟩, rfl, Serving.held_start hrbuf hw⟩
  show w.conn.state = .connNread ↔ false = true
  rw [hw]
  exact iff_of_false nofun nofun

/-- A storage line and its block in one read. -/
def setInOne : List Happening := oneLine (bytes "set a 0 0 1\r\nx\r\n")

/-- A `cas` whose block is too large, and the first line of the block in the same read. -/
def casTooLarge : List Happening := oneLine (bytes "cas a 0 0 9000 1\r\nversion\r\n") ++ [.turn]

end Hearing

end MiniMemcached
