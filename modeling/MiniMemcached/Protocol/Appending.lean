import MiniMemcached.Protocol.Handlers
import MiniMemcached.Service.Splicing

/-! Sequences of append and prepend requests. A line of five fields gives the item of the
client the id 0, which `do_store_item` compares with the id of the item that is
there; ids are given from 1 on, and the joined item gets the next one. -/

namespace MiniMemcached

open Memory Runs

/-- A request in the form of five fields, with the times of its line and its block. -/
structure JoinRequest (k : List UInt8) where
  tokens : List (List UInt8)
  line : StoreLine
  block : List UInt8
  lineTime : UInt32
  blockTime : UInt32
  fields : tokens.length = 5
  parsed : parseStoreLine tokens false = some line
  join : line.cmd = .append ∨ line.cmd = .prepend
  key : line.key = k
  size : ((block ++ crlf).length : ℤ) = line.vlen

namespace JoinRequest

variable {k : List UInt8}

theorem cmd_ne_error (r : JoinRequest k) : r.line.cmd ≠ .error := by
  intro e
  rcases r.join with h | h <;> cases h.symm.trans e

/-- The line and its block. -/
def actions (conn : ℕ) (r : JoinRequest k) : List Action :=
  [⟨r.lineTime, conn, .store r.line r.cmd_ne_error⟩, ⟨r.blockTime, conn, .block (r.block ++ crlf)⟩]

/-- The value joined with the block on the side that is asked for. -/
def extend (x : List UInt8) (r : JoinRequest k) : List UInt8 :=
  if r.line.cmd = .append then x ++ r.block else r.block ++ x

/-- A line of five fields names no id. -/
theorem casId (r : JoinRequest k) : r.line.casId = 0 := by
  have hparsed := r.parsed
  unfold parseStoreLine at hparsed
  simp only [Bool.false_eq_true, if_false] at hparsed
  split at hparsed
  · rename_i hcas
    split at hparsed
    · rw [← Option.some.inj hparsed]
      exact (Option.some.inj hcas).symm
    · cases hparsed
  · cases hparsed

end JoinRequest

namespace Service

/-- The allocations of an append or a prepend succeed. -/
def SmallEnough (st : Service) (a : Action) : Prop :=
  match a.req with
  | .store L _ => st.cache.slab.allocOk L.key.length L.vlen
  | .block _ => ∀ P, st.pending a.conn = some P → ∀ old ∈ st.cache.found P.line.key,
      st.cache.slab.allocOk P.line.key.length (toInt (P.line.vlen + st.cache.items.nbytes old - 2))
  | _ => True

/-- Every request is answered `STORED`, and then a lookup finds the joined value. -/
def Joins (conn : ℕ) {k : List UInt8} : Service → List UInt8 → List (JoinRequest k) → Prop
  | st, x, [] => ∀ now, ∃ s' it, ({ st.cache with clock := now } : Cache).itemGet k = .ok (s', some it) ∧
      s'.items.value it = x ++ crlf
  | st, x, r :: rs => ∃ st', run step st (r.actions conn) = .ok st' ∧ st'.reply = .stored .STORED ∧
      Joins conn st' (r.extend x) rs

/-- The key holds a value and does not expire, and the connection may send a request. -/
structure Holding (st : Service) (g : Shape) (conn : ℕ) (k : List UInt8) (p : Ptr) (x : List UInt8) :
    Prop where
  inv : Inv st g
  sized : Sized st.cache g
  free : st.pending conn = none
  table : p ∈ g.table
  key : st.cache.items.key p = k
  exptime : st.cache.items.exptime p = 0
  value : st.cache.items.value p = x ++ crlf

variable {st st' : Service} {g g' : Shape} {a : Action} {conn : ℕ} {k x : List UInt8} {p : Ptr}

/-- The line of a request gets its item, and the key is not affected. -/
theorem Holding.line (h : Holding st g conn k p x) (r : JoinRequest k)
    (hok : st.cache.slab.allocOk r.line.key.length r.line.vlen) :
    ∃ st' g' it, st.step ⟨r.lineTime, conn, .store r.line r.cmd_ne_error⟩ = .ok st' ∧ Inv st' g' ∧
      Sized st'.cache g' ∧ st'.pending conn = some ⟨it, r.line⟩ ∧ p ∈ g'.table ∧
      Kept st.cache.items st'.cache.items p ∧ st'.cache.items.cas p = st.cache.items.cas p ∧
      st'.cache.casId = st.cache.casId := by
  set a : Action := ⟨r.lineTime, conn, .store r.line r.cmd_ne_error⟩ with ha
  have hs : Sound (st.at_ a) g := h.inv.sound.setClock a.now
  rcases step_spec h.inv a with ⟨-, bytes, P, hreq, -⟩ | ⟨st', g', acts, hstep, hinv, hsteps, hacts⟩
  · cases hreq
  have hallowed : st.Allowed a := by
    simp [Allowed, ha, h.free]
  have hsized := hacts.sized h.inv h.sized hstep hinv hsteps
  have hpE := (hs.linked p h.table).1
  have hev := hsteps.evolves hs (K := ∅) (by simp) (by simp)
  cases hacts with
  | ignored hno hst => exact absurd hallowed hno
  | longKey k hreq => cases hreq
  | get k hreq => cases hreq
  | delete k hreq => cases hreq
  | block P bytes hreq => cases hreq
  | refused L hcmd hreq hfree acts hline hpend =>
    cases hreq
    cases hline with
    | refused hno => exact absurd hok hno
    | removed acts b hno => exact absurd hok hno
  | accepted L hcmd hreq hfree it acts hline hpend hreply =>
    cases hreq
    cases hline with
    | granted _ hok' hE hnew =>
      refine ⟨st', g', it, hstep, hinv, hsized, ?_, hsteps.table_mono (by simp) h.table,
        hsteps.kept_linked hs hpE, hev.cas p (.inl hpE), hsteps.links_of_unlinking hs fun l => rfl⟩
      rw [hpend]
      exact Function.update_self ..

/-- A connection has sent the line of a request for a key that holds a value. -/
structure Joining (st : Service) (g : Shape) (conn : ℕ) {k : List UInt8} (r : JoinRequest k) (it p : Ptr)
    (x : List UInt8) : Prop where
  inv : Inv st g
  sized : Sized st.cache g
  pending : st.pending conn = some ⟨it, r.line⟩
  table : p ∈ g.table
  key : st.cache.items.key p = k
  exptime : st.cache.items.exptime p = 0
  value : st.cache.items.value p = x ++ crlf

/-- What the block of a request does when the allocation succeeds: `STORED` is answered
just when the item has the id 0. -/
theorem Joining.answer {r : JoinRequest k} {it : Ptr} (h : Joining st g conn r it p x)
    (hok : st.cache.slab.allocOk r.line.key.length (toInt (r.line.vlen + st.cache.items.nbytes p - 2)))
    {acts : List Act} {stat : StoreStat}
    (hacts : StoreActs (st.at_ ⟨r.blockTime, conn, .block (r.block ++ crlf)⟩)
      g it r.line.cmd acts stat) :
    stat = .STORED ↔ st.cache.items.cas p = 0 := by
  have hs : Sound (st.at_ ⟨r.blockTime, conn, .block (r.block ++ crlf)⟩) g := h.inv.sound.setClock _
  have hfill := h.inv.filled conn _ h.pending
  have hkey : (st.at_ ⟨r.blockTime, conn, .block (r.block ++ crlf)⟩).items.key it = k := hfill.key.trans r.key
  have hcas : st.cache.items.cas it = 0 := hfill.cas.trans r.casId
  have hlive : (st.at_ ⟨r.blockTime, conn, .block (r.block ++ crlf)⟩).live k p :=
    ⟨(hs.mem_found_iff k p).mpr ⟨h.table, h.key⟩, fun he => he.1 h.exptime⟩
  have hfind : ∀ {acts old}, GetActs (st.at_ ⟨r.blockTime, conn, .block (r.block ++ crlf)⟩) g
      ((st.at_ ⟨r.blockTime, conn, .block (r.block ++ crlf)⟩).items.key it) acts old → old = some p := by
    intro acts old hget
    rw [hkey] at hget
    exact (hget.live_iff hs p).mp hlive
  cases hacts with
  | noKey acts hget => cases hfind hget
  | new acts hget => cases hfind hget
  | taken old acts hget hcmd => rcases r.join with e | e <;> cases e.symm.trans hcmd
  | replaced old acts hget hcmd => rcases r.join with e | e <;> simp [e] at hcmd
  | swapped old acts hget hcmd => rcases r.join with e | e <;> cases e.symm.trans hcmd
  | stale old acts hget hcmd hne =>
    cases hfind hget
    exact ⟨nofun, fun e => absurd (hcas.trans e.symm) hne⟩
  | full old acts hget hcmd heq hno =>
    cases hfind hget
    have hsame : st.cache.slab.allocOk (st.cache.items.nkey it).toNat (joinBytes st.cache it p) := by
      unfold joinBytes
      rw [hfill.nkey, hfill.nbytes]
      exact hok
    exact absurd hsame hno
  | joined old new acts hget hcmd heq hok' hnew =>
    cases hfind hget
    exact ⟨fun _ => heq.symm.trans hcas, fun _ => rfl⟩

/-- The items that an append or a prepend which answers `STORED` has linked. -/
theorem linking_of_joined {s : Cache} {it : Ptr} {cmd : Nread} {acts : List Act}
    (h : StoreActs s g it cmd acts .STORED) (hcmd : cmd = .append ∨ cmd = .prepend) :
    ∃ new, ∀ l, acts.foldl Act.linking l = new :: l := by
  cases h with
  | joined old new acts hget =>
    refine ⟨new, fun l => ?_⟩
    have hget : ∀ l, acts.foldl Act.linking l = l := by
      cases hget
      exact fun _ => rfl
    rw [List.foldl_append, hget]
    rfl
  | new acts hget hcmd' => rcases hcmd with e | e <;> simp [e] at hcmd'
  | replaced old acts hget hcmd' => rcases hcmd with e | e <;> simp [e] at hcmd'
  | swapped old acts hget hcmd' => rcases hcmd with e | e <;> cases e.symm.trans hcmd'

/-- The block of a request that gets memory. -/
theorem Joining.block {r : JoinRequest k} {it : Ptr} (h : Joining st g conn r it p x)
    (hok : st.cache.slab.allocOk r.line.key.length (toInt (r.line.vlen + st.cache.items.nbytes p - 2))) :
    ∃ st' g' stat, st.step ⟨r.blockTime, conn, .block (r.block ++ crlf)⟩ = .ok st' ∧
      st'.reply = .stored stat ∧ (stat = .STORED ↔ st.cache.items.cas p = 0) ∧
      (stat = .STORED → ∃ new, Holding st' g' conn k new (r.extend x) ∧
        st'.cache.items.cas new = st.cache.casId + 1 ∧ st'.cache.casId = st.cache.casId + 1) := by
  set a : Action := ⟨r.blockTime, conn, .block (r.block ++ crlf)⟩ with ha
  have hs : Sound (st.at_ a) g := h.inv.sound.setClock a.now
  have hallowed : st.Allowed a := by
    unfold Allowed
    rw [show st.pending a.conn = _ from h.pending]
    exact r.size
  rcases step_spec h.inv a with ⟨-, bytes, P, -, hP, hcmd, -⟩ | ⟨st', g', acts, hstep, hinv, hsteps, hacts⟩
  · cases h.pending.symm.trans hP
    rcases r.join with e | e <;> cases e.symm.trans hcmd
  have hsized := hacts.sized h.inv h.sized hstep hinv hsteps
  cases hacts with
  | ignored hno hst => exact absurd hallowed hno
  | longKey k hreq => cases hreq
  | get k hreq => cases hreq
  | delete k hreq => cases hreq
  | accepted L hcmd hreq => cases hreq
  | refused L hcmd hreq => cases hreq
  | block P bytes hreq hP hlen acts stat hstore hlinked hkept hpend hreply =>
    obtain rfl : P = ⟨it, r.line⟩ := Option.some.inj (hP.symm.trans h.pending)
    obtain rfl : bytes = r.block ++ crlf := by cases hreq; rfl
    refine ⟨st', g', stat, hstep, hreply, h.answer hok hstore, ?_⟩
    rintro rfl
    obtain ⟨c, hblock⟩ := commandBlock_of_step hstep hreq hP hlen hreply
    have hit : it ∈ g.inFlight := (h.inv.flight _).mpr ⟨conn, _, h.pending, rfl⟩
    have hwrite := (Steps.writeValue (s := st.at_ a) hit (r.block ++ crlf)).sound hs
    obtain ⟨old, new, hold, hkey, hE, -, hspliced, -⟩ := storeItem_spliced hwrite
      ((h.sized.setClock a.now).writeValue hs hit (r.block ++ crlf)) hit r.join hblock
    have hfill := h.inv.filled conn _ h.pending
    have hkold : ((st.at_ a).writeValue it (r.block ++ crlf)).items.key old = k := by
      rw [hkey, key_writeValue]
      exact hfill.key.trans r.key
    have hkp : ((st.at_ a).writeValue it (r.block ++ crlf)).items.key p = k :=
      (key_writeValue _ _ _ _).trans h.key
    obtain rfl : old = p := by
      have hfound := (hwrite.mem_found_iff k old).mpr ⟨hold, hkold⟩
      exact Option.some.inj (hfound.symm.trans ((hwrite.mem_found_iff k p).mpr ⟨h.table, hkp⟩))
    obtain ⟨hnew, hknew⟩ := (hinv.sound.mem_found_iff _ _).mp hspliced.found
    have hne : old ≠ it := fun e => h.inv.sound.unlinked it hit (e ▸ (h.inv.sound.linked old h.table).1)
    have hcas : st'.cache.items.cas new = st.cache.casId + 1 ∧ st'.cache.casId = st.cache.casId + 1 := by
      obtain ⟨q, hone⟩ := linking_of_joined hstore r.join
      refine hsteps.cas_of_linking hs (q := q) hE (hinv.sound.linked new hnew).1 fun l => ?_
      simp only [List.cons_append, List.foldl_cons, List.foldl_append, List.foldl_nil]
      exact hone l
    have hvit : ((st.at_ a).writeValue it (r.block ++ crlf)).items.value it = r.block ++ crlf := by
      apply value_writeValue
      have hlen : ((r.block ++ crlf).length : ℤ) = st.cache.items.nbytes it := hlen.trans hfill.nbytes.symm
      show (r.block ++ crlf).length = (st.cache.items.nbytes it).toNat
      omega
    have hvp : ((st.at_ a).writeValue it (r.block ++ crlf)).items.value old = x ++ crlf :=
      (value_writeValue_of_ne _ _ hne).trans h.value
    have htake : ∀ {q : Ptr} {z : List UInt8},
        ((st.at_ a).writeValue it (r.block ++ crlf)).items.value q = z ++ crlf →
        (z ++ crlf).take (((st.at_ a).writeValue it (r.block ++ crlf)).items.nbytes q - 2).toNat = z :=
      fun hz => take_value hz
    refine ⟨new, ⟨hinv, hsized, ?_, hnew, hknew.trans hkold, hspliced.exptime.trans h.exptime, ?_⟩, hcas⟩
    · rw [hpend]
      exact Function.update_self ..
    · rw [hspliced.value, hvit, hvp, htake hvp, htake hvit]
      unfold JoinRequest.extend
      rcases r.join with e | e <;> simp [e]

/-- The ids that the item of the key has when the requests are served. -/
def nextIds (id casId : UInt64) : ℕ → List UInt64
  | 0 => []
  | n + 1 => id :: nextIds (casId + 1) (casId + 1) n

/-- A request and what is left of the sequence. -/
theorem Holding.request (h : Holding st g conn k p x) (r : JoinRequest k) (rs : List (JoinRequest k))
    (hsmall : EachStep step SmallEnough st (r.actions conn)) :
    (st.cache.items.cas p ≠ 0 ∧ ¬Joins conn st x (r :: rs)) ∨
    st.cache.items.cas p = 0 ∧ ∃ st' g' new, run step st (r.actions conn) = .ok st' ∧
      st'.reply = .stored .STORED ∧ Holding st' g' conn k new (r.extend x) ∧
      st'.cache.items.cas new = st.cache.casId + 1 ∧ st'.cache.casId = st.cache.casId + 1 := by
  obtain ⟨st₁, g₁, it, hline, hinv, hsized, hpend, htable, hkept, hcas, hid⟩ := h.line r hsmall.1
  have hjoining : Joining st₁ g₁ conn r it p x :=
    ⟨hinv, hsized, hpend, htable, hkept.key.trans h.key, hkept.exptime.trans h.exptime,
      hkept.value.trans h.value⟩
  have hfound : p ∈ st₁.cache.found r.line.key :=
    (hinv.sound.mem_found_iff _ _).mpr ⟨htable, hjoining.key.trans r.key.symm⟩
  obtain ⟨st₂, g₂, stat, hblock, hreply, hiff, hnew⟩ :=
    hjoining.block ((hsmall.2 st₁ hline).1 _ hpend p hfound)
  have hrun : run step st (r.actions conn) = .ok st₂ := by
    unfold JoinRequest.actions
    rw [run_cons_ok step hline, run_cons_ok step hblock, run_nil]
  rw [hcas] at hiff
  by_cases hz : st.cache.items.cas p = 0
  · obtain ⟨new, hhold, hc, hi⟩ := hnew (hiff.mpr hz)
    rw [hiff.mpr hz] at hreply
    exact .inr ⟨hz, st₂, g₂, new, hrun, hreply, hhold, by rw [hc, hid], by rw [hi, hid]⟩
  · refine .inl ⟨hz, ?_⟩
    rintro ⟨st', hst', hstored, -⟩
    obtain rfl : st₂ = st' := Except.ok.inj (hrun.symm.trans hst')
    rw [hreply] at hstored
    cases hstored
    exact hz (hiff.mp rfl)

/-- A lookup finds the value that the key holds. -/
theorem Holding.lookup (h : Holding st g conn k p x) : Joins conn st x ([] : List (JoinRequest k)) := by
  intro now
  have hs : Sound ({ st.cache with clock := now } : Cache) g := h.inv.sound.setClock now
  obtain ⟨s', g', acts, o, heq, hsteps, hget, -, hlive⟩ := Steps.itemGet hs k
  have hp : ({ st.cache with clock := now } : Cache).live k p :=
    ⟨(hs.mem_found_iff k p).mpr ⟨h.table, h.key⟩, fun he => he.1 h.exptime⟩
  obtain rfl := (hget.live_iff hs p).mp hp
  refine ⟨s', p, heq, ?_⟩
  rw [(hlive p rfl).1]
  exact h.value

/-- The requests work just when the item of the key has the id 0 before each of them. -/
theorem Holding.joins_iff_nextIds (h : Holding st g conn k p x) (rs : List (JoinRequest k))
    (hsmall : EachStep step SmallEnough st (rs.flatMap (JoinRequest.actions conn))) :
    Joins conn st x rs ↔ ∀ id ∈ nextIds (st.cache.items.cas p) st.cache.casId rs.length, id = 0 := by
  induction rs generalizing st g p x with
  | nil => exact iff_of_true h.lookup (by simp [nextIds])
  | cons r rs ih =>
    rw [List.flatMap_cons] at hsmall
    rw [List.length_cons, nextIds, List.forall_mem_cons]
    rcases h.request r rs hsmall.append_left with ⟨hne, hno⟩ |
      ⟨hz, st', g', new, hrun, hreply, hhold, hcas, hid⟩
    · exact iff_of_false hno fun hall => hne hall.1
    · have hrest := ih hhold (hsmall.append_right hrun)
      rw [hcas, hid] at hrest
      rw [← hrest]
      constructor
      · rintro ⟨st₁, hst₁, -, hjoins⟩
        obtain rfl : st₁ = st' := Except.ok.inj (hst₁.symm.trans hrun)
        exact ⟨hz, hjoins⟩
      · rintro ⟨-, hjoins⟩
        exact ⟨st', hrun, hreply, hjoins⟩

/-- The ids count up from the one that is given next, so that at most two are 0. -/
theorem nextIds_zero_iff (id casId : UInt64) (n : ℕ) :
    (∀ i ∈ nextIds id casId n, i = 0) ↔ n = 0 ∨ id = 0 ∧ (n = 1 ∨ n = 2 ∧ casId + 1 = 0) := by
  match n with
  | 0 => simp [nextIds]
  | 1 => simp [nextIds]
  | 2 => simp [nextIds]
  | n + 3 =>
    simp only [nextIds, List.forall_mem_cons]
    constructor
    · rintro ⟨-, h₁, h₂, -⟩
      rw [h₁] at h₂
      exact absurd h₂ (by decide)
    · omega

/-- Appends and prepends in the form of five fields, to a key that holds a value and does
not expire, work just when there is none of them; or when the ids have come round
to 0: one works then, and two when the next id is 0 too. -/
theorem joins_iff {limit : ℕ} {set : Settings} {mallocOk : ℕ → Bool} {hashpower : ℕ} {s₀ : Cache}
    (hinit : Cache.init limit set mallocOk hashpower = some s₀) {as : List Action}
    (hrun : run step (start s₀) as = .ok st) (hfree : st.pending conn = none)
    (hfound : p ∈ st.cache.found k) (hexp : st.cache.items.exptime p = 0)
    (hvalue : st.cache.items.value p = x ++ crlf) (rs : List (JoinRequest k))
    (hsmall : EachStep step SmallEnough st (rs.flatMap (JoinRequest.actions conn))) :
    Joins conn st x rs ↔
      rs.length = 0 ∨ st.cache.items.cas p = 0 ∧
      (rs.length = 1 ∨ rs.length = 2 ∧ st.cache.casId + 1 = 0) := by
  obtain ⟨g, hinv, hsized⟩ := sized_of_run hinit hrun
  obtain ⟨htable, hkey⟩ := (hinv.sound.mem_found_iff k p).mp hfound
  have hhold : Holding st g conn k p x := ⟨hinv, hsized, hfree, htable, hkey, hexp, hvalue⟩
  rw [hhold.joins_iff_nextIds rs hsmall, nextIds_zero_iff]

instance (st : Service) (a : Action) : Decidable (st.SmallEnough a) := by
  unfold SmallEnough
  split
  · infer_instance
  · exact inferInstanceAs (Decidable (∀ P ∈ st.pending a.conn, ∀ old ∈ st.cache.found P.line.key,
      st.cache.slab.allocOk P.line.key.length (toInt (P.line.vlen + st.cache.items.nbytes old - 2))))
  · infer_instance

/-- `append a 0 0 1` with the block `y`. -/
def appendOne : JoinRequest [97] where
  tokens := [bytes "append", bytes "a", bytes "0", bytes "0", bytes "1"]
  line := shortLine .append 97 0 0 0
  block := [121]
  lineTime := 1
  blockTime := 1
  fields := by decide +kernel
  parsed := by decide +kernel
  join := by simp [shortLine]
  key := rfl
  size := rfl

theorem appendOne_trial : ((trial 0 0 (storing 1 0 (shortLine .set 97 0 0 0) set_ne_error)).any fun st =>
    (st.cache.found [97]).any fun p =>
      decide (st.pending 0 = none) && decide (st.cache.items.exptime p = 0) &&
      decide (st.cache.items.value p = [120] ++ crlf) && decide (st.cache.items.cas p = 1) &&
      decide (EachStep step SmallEnough st ([appendOne].flatMap (JoinRequest.actions 0)))) = true := by
  decide +kernel

/-- The key holds `x`, and its item has the id 1. -/
theorem joins_iff_appendOne : ∃ s₀ st p, Cache.init 0 smallSettings (fun _ => true) 0 = some s₀ ∧
    run step (start s₀) (storing 1 0 (shortLine .set 97 0 0 0) set_ne_error) = .ok st ∧
    st.cache.items.cas p = 1 ∧
    (Joins 0 st [120] [appendOne] ↔
      [appendOne].length = 0 ∨ st.cache.items.cas p = 0 ∧
        ([appendOne].length = 1 ∨ [appendOne].length = 2 ∧ st.cache.casId + 1 = 0)) := by
  obtain ⟨s₀, st, hinit, hrun, hp⟩ := exists_of_trial appendOne_trial
  obtain ⟨p, hfound, hp⟩ := (Option.any_eq_true _ _).mp hp
  simp only [Bool.and_eq_true, decide_eq_true_eq] at hp
  obtain ⟨⟨⟨⟨hfree, hexp⟩, hvalue⟩, hcas⟩, hsmall⟩ := hp
  exact ⟨s₀, st, p, hinit, hrun, hcas, joins_iff hinit hrun hfree hfound hexp hvalue [appendOne] hsmall⟩

/-- The item of the key has the id 1 and the line names none: the answer is `EXISTS`. -/
theorem not_joins_appendOne : ∃ s₀ st p, Cache.init 0 smallSettings (fun _ => true) 0 = some s₀ ∧
    run step (start s₀) (storing 1 0 (shortLine .set 97 0 0 0) set_ne_error) = .ok st ∧
    st.pending 0 = none ∧ p ∈ st.cache.found [97] ∧ st.cache.items.exptime p = 0 ∧
    st.cache.items.value p = [120] ++ crlf ∧
    EachStep step SmallEnough st ([appendOne].flatMap (JoinRequest.actions 0)) ∧
    ¬Joins 0 st [120] [appendOne] := by
  obtain ⟨s₀, st, hinit, hrun, hp⟩ := exists_of_trial appendOne_trial
  obtain ⟨p, hfound, hp⟩ := (Option.any_eq_true _ _).mp hp
  simp only [Bool.and_eq_true, decide_eq_true_eq] at hp
  obtain ⟨⟨⟨⟨hfree, hexp⟩, hvalue⟩, hcas⟩, hsmall⟩ := hp
  refine ⟨s₀, st, p, hinit, hrun, hfree, hfound, hexp, hvalue, hsmall, ?_⟩
  obtain ⟨g, hinv, hsized⟩ := sized_of_run hinit hrun
  obtain ⟨htable, hkey⟩ := (hinv.sound.mem_found_iff [97] p).mp hfound
  have hhold : Holding st g 0 [97] p [120] := ⟨hinv, hsized, hfree, htable, hkey, hexp, hvalue⟩
  rw [hhold.joins_iff_nextIds [appendOne] hsmall, hcas]
  exact fun h => absurd (h 1 List.mem_cons_self) (by decide)

end Service

end MiniMemcached
