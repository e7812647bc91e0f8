import MiniMemcached.Protocol.Sharing
import MiniMemcached.Service.Splicing

/-! A server: a cache and the connections that work on it, each in the event loop of its
worker. Whatever they do and in whatever order, the bytes that a connection writes
into an item stay inside the chunk of the item, as long as no failed `set` takes away
the item whose block its connection holds the buffer for. -/

namespace MiniMemcached

open Memory Runs

/-- The first half of `read_value_stored`: what the socket has of the block; `true` when the
block is looked at afterwards. -/
def World.readBlock (w : World) : Result (World × Bool) := do
  if w.conn.flagShake then pure (w, true)
  else
    match w.read (toSizeT (w.conn.rnbufLen - w.conn.rnbufRlen)) with
    | (w, .again) => pure (w, false)
    | (w, .failed) => pure (w, true)
    | (w, .data []) =>
      if w.conn.rnbufRlen ≠ w.conn.rnbufLen then pure (w.setState .connClosed, false)
      else pure (w, true)
    | (taken, .data bs) =>
      if w.conn.rnbuf = .null then pure (w, true)
      else do
        let rnbuf ← taken.conn.rnbuf.deref
        let rnbuf ← write rnbuf 0 bs
        pure ({ taken with
          conn := { taken.conn with
            rnbuf := .live rnbuf
            rnbufRlen := taken.conn.rnbufRlen + bs.length }
          deeds := taken.deeds ++ [.block bs] }, true)

theorem World.readValueStored_eq (w : World) :
    w.readValueStored = w.readBlock >>= fun r => if r.2 then r.1.finishValue else .ok r.1 := by
  unfold World.readValueStored World.readBlock
  split
  · rfl
  · generalize w.read (toSizeT (w.conn.rnbufLen - w.conn.rnbufRlen)) = found
    obtain ⟨w', r⟩ := found
    cases r with
    | again => rfl
    | failed => rfl
    | data bs =>
      cases bs with
      | nil =>
        dsimp only
        split_ifs <;> rfl
      | cons b bs =>
        dsimp only
        split_ifs
        · rfl
        · cases w'.conn.rnbuf.deref with
          | error e => rfl
          | ok rnbuf =>
            simp only [Result.ok_bind]
            cases write rnbuf 0 (b :: bs) <;> rfl

/-- Reading the block keeps the item of the connection. -/
theorem World.readBlock_keeps {w w' : World} {b : Bool} (h : w.readBlock = .ok (w', b)) :
    w'.cache = w.cache ∧ w'.conn.own = w.conn.own ∧ w'.conn.rnbufLen = w.conn.rnbufLen := by
  unfold World.readBlock at h
  split at h
  · cases h
    exact ⟨rfl, rfl, rfl⟩
  · split at h
    all_goals rename_i hread
    all_goals have htaken := World.read_spec hread
    · cases h
      cases htaken <;> exact ⟨rfl, rfl, rfl⟩
    · cases h
      cases htaken
      exact ⟨rfl, rfl, rfl⟩
    · split at h
      all_goals
        cases h
        cases htaken <;> exact ⟨rfl, rfl, rfl⟩
    · split at h
      · cases h
        exact ⟨rfl, rfl, rfl⟩
      · obtain ⟨rnbuf, hlive, h⟩ := Result.bind_eq_ok.mp h
        obtain ⟨rnbuf', -, h⟩ := Result.bind_eq_ok.mp h
        cases h
        have hlive := Block.deref_eq_ok.mp hlive
        cases htaken
        all_goals
          refine ⟨rfl, ?_, rfl⟩
          unfold Conn.own
          rw [hlive]

/-- The state in which `read_value_stored` copies the value into an item. -/
def World.CopiesValue (w : World) (it : Ptr) : Prop :=
  w.conn.rnbufLen = w.conn.rnbufRlen ∧ w.conn.cmd ≠ .error ∧ w.conn.item = some it ∧
    ∃ bs, w.conn.rnbuf = .live bs

/-- What is written into the item by the copy of the value, and into a new one by a join of
its value with the one that is found, stays inside. -/
structure World.WritesInside (w : World) (it : Ptr) : Prop where
  len : w.conn.rnbufLen = w.cache.items.nbytes it
  value : ∃ id, w.cache.InClass id it (w.cache.items.nkey it).toNat 1 ∧
    w.cache.InClass id it ((w.cache.items.nkey it).toNat + 1) w.conn.rnbufLen
  joins : ∀ (bytes : List UInt8) (append : Bool) (s s' : Cache) (old new : Ptr),
    ((w.cache.writeValue it bytes).hashLock (HashTable.hash (w.cache.items.key it))).doItemGet
      (w.cache.items.key it) (HashTable.hash (w.cache.items.key it)) = .ok (s, some old) →
    s.doItemAlloc (s.items.nkey it).toNat (joinBytes s it old) = .ok (s', some new) →
    s'.JoinsInside (s.slab.slabsClsid (ntotal (s.items.nkey it).toNat (joinBytes s it old))) new it old append

/-- A connection that owns an item in flight writes inside. -/
theorem World.writesInside {w w' : World} {g : Shape} {it : Ptr} (h : Sound w.cache g)
    (hsized : Sized w.cache g)
    (howns : w.Owns g) (hread : w.readBlock = .ok (w', true)) (hcopy : w'.CopiesValue it) :
    w'.WritesInside it := by
  obtain ⟨hcache, hown, hlen⟩ := World.readBlock_keeps hread
  obtain ⟨-, -, hitem, bs, hlive⟩ := hcopy
  have hmine : w'.conn.own = some it := by
    unfold Conn.own
    rw [hlive]
    exact hitem
  obtain ⟨hit, hn⟩ := howns it (hown.symm.trans hmine)
  rw [← hcache] at h hsized hn
  rw [← hlen] at hn
  refine ⟨hn, ?_, fun bytes append s s' old new hget halloc => ?_⟩
  · obtain ⟨id, hsep, hvalue⟩ := (hsized.fits it (.inr hit)).inClass
    exact ⟨id, hsep, by rw [hn]; exact hvalue⟩
  · have hwrite := Steps.writeValue (s := w'.cache) hit bytes
    have hlock := Steps.hashLock (s := w'.cache.writeValue it bytes) (g := g)
      (HashTable.hash (w'.cache.items.key it))
    have hs := hlock.sound (hwrite.sound h)
    have hsized' := ((hsized.writeValue h hit bytes).unfresh (hwrite.sound h) hlock (by simp [Act.fresh]))
    obtain ⟨s₁, g₁, acts, r, hget', hsteps, hacts, -, hlivep⟩ := Steps.doItemGet hs (w'.cache.items.key it)
    cases hget'.symm.trans hget
    obtain ⟨-, rfl⟩ := hlivep old rfl
    cases hacts with
    | live _ hp hk hl =>
      have hev := hsteps.evolves hs (K := {it}) (by simpa using hit) (by simp [Act.writes])
      refine joinsInside_of_alloc (hsteps.sound hs)
        (hsized'.unfresh hs hsteps (by simp [Act.fresh])) hit hp ?_ halloc append
      rw [hev.key (.inl (hs.linked old hp).1), hev.key (.inr rfl)]
      exact hk.trans (key_writeValue _ _ _ _).symm

/-- A cache and its connections. The cache of a connection's own world only counts while
the connection takes a turn. -/
structure Server where
  cache : Cache
  conn : ℕ → Serving

/-- A watcher of a connection fires, its machine takes a turn, or the clock ticks. -/
inductive Stir
  | event (i : ℕ) (watcher : Watcher) (reads : List ReadResult) (writes : List WriteResult)
  | turn (i : ℕ)
  | clock (now : UInt32)

namespace Server

/-- A connection with the cache as it is. -/
def serving (V : Server) (i : ℕ) : Serving :=
  { V.conn i with world := { (V.conn i).world with cache := V.cache } }

/-- The server after a step of one connection. -/
def stirred (V : Server) (i : ℕ) (s : Serving) : Server :=
  { cache := s.world.cache, conn := Function.update V.conn i s }

def step (V : Server) : Stir → Result Server
  | .event i watcher reads writes => do
    let s ← (V.serving i).step (.event watcher reads writes)
    pure (V.stirred i s)
  | .turn i => do
    let s ← (V.serving i).step .turn
    pure (V.stirred i s)
  | .clock now => .ok { V with cache := { V.cache with clock := now } }

def start (s : Cache) (w : ℕ → World) : Server := ⟨s, fun i => Serving.start (w i)⟩

/-- Every write into an item stays inside the chunk of the item. -/
structure CopiesInside (V : Server) : Prop where
  keys : ∀ (L : StoreLine) (s' : Cache) (it : Ptr),
    V.cache.doItemAlloc L.key.length L.vlen = .ok (s', some it) →
    s'.InClass (V.cache.slab.slabsClsid (ntotal L.key.length L.vlen)) it 0 L.key.length
  values : ∀ (i : ℕ) (w : World) (it : Ptr), (V.serving i).world.conn.state = .connNread →
    (V.serving i).world.readBlock = .ok (w, true) → w.CopiesValue it → w.WritesInside it
  linked : ∀ (k : List UInt8) (p : Ptr), p ∈ V.cache.found k → 2 ≤ V.cache.items.nbytes p

/-- The connections own different items in flight. -/
structure Inv (V : Server) (g : Shape) : Prop where
  sound : Sound V.cache g
  sized : Sized V.cache g
  owns : ∀ i, (V.serving i).world.Owns g
  apart : ∀ i j it, (V.conn i).world.conn.own = some it → (V.conn j).world.conn.own = some it → i = j

variable {V V' : Server} {g g' : Shape} {a : Stir}

theorem Inv.stirred (h : Inv V g) {i : ℕ} {s : Serving} (heff : (V.serving i).world.Effect g s.world g') :
    Inv (V.stirred i s) g' := by
  have hself : ((V.stirred i s).conn i) = s := Function.update_self ..
  have hother : ∀ j, j ≠ i → (V.stirred i s).conn j = V.conn j := fun j hj => Function.update_of_ne hj ..
  refine ⟨heff.sound, heff.sized, fun j it hit => ?_, fun j k it hj hk => ?_⟩
  · by_cases hji : j = i
    · subst hji
      have hsame : (V.stirred j s).serving j = s := by
        unfold serving
        rw [hself]
        rfl
      rw [hsame] at hit ⊢
      exact heff.owns it hit
    · have hit : (V.conn j).world.conn.own = some it := by
        rw [← hother j hji]
        exact hit
      obtain ⟨hin, hlen⟩ := h.owns j it hit
      obtain ⟨hin', hn⟩ := heff.others it hin fun hi => hji (h.apart j i it hit hi)
      refine ⟨hin', ?_⟩
      show ((V.stirred i s).conn j).world.conn.rnbufLen = s.world.cache.items.nbytes it
      rw [hother j hji, hn]
      exact hlen
  · -- an item that the connection did not own before is one that nobody owned
    have hnew : ∀ j, j ≠ i → (V.conn j).world.conn.own = some it → s.world.conn.own = some it → False := by
      intro j hji hj hi
      rcases heff.fresh it hi with hwas | hnot
      · exact hji (h.apart j i it hj hwas)
      · exact hnot (h.owns j it hj).1
    by_cases hji : j = i <;> by_cases hki : k = i
    · exact hji.trans hki.symm
    · subst hji
      rw [hself] at hj
      rw [hother k hki] at hk
      exact (hnew k hki hk hj).elim
    · subst hki
      rw [hself] at hk
      rw [hother j hji] at hj
      exact (hnew j hji hj hk).elim
    · rw [hother j hji] at hj
      rw [hother k hki] at hk
      exact h.apart j k it hj hk

/-- No failed `set` takes away the item of a connection that holds a buffer. -/
def Calm (V : Server) : Stir → Prop
  | .turn i => (V.conn i).running = true → ¬(V.serving i).world.Snatches
  | _ => True

theorem inv_step (h : ∃ g, Inv V g) (hcalm : V.Calm a) (hstep : V.step a = .ok V') : ∃ g', Inv V' g' := by
  obtain ⟨g, h⟩ := h
  have hidle : ∀ i (s : Serving), s.world.cache = V.cache → (V.serving i).world.KeepsOwn s.world →
      ∃ g', Inv (V.stirred i s) g' := fun i s hcache hown =>
    ⟨g, h.stirred (.idle h.sound h.sized (h.owns i) hcache hown)⟩
  cases a with
  | event i watcher reads writes =>
    obtain ⟨s, hs, hstep⟩ := Result.bind_eq_ok.mp hstep
    cases hstep
    simp only [Serving.step] at hs
    split at hs
    all_goals
      cases hs
      exact hidle i _ rfl (.of_same rfl rfl rfl)
  | turn i =>
    obtain ⟨s, hs, hstep⟩ := Result.bind_eq_ok.mp hstep
    cases hstep
    simp only [Serving.step] at hs
    split at hs
    · rename_i hrun
      obtain ⟨w, hw, hs⟩ := Result.bind_eq_ok.mp hs
      cases hs
      obtain ⟨g', heff⟩ := World.turn_effect h.sound h.sized (h.owns i) (hcalm hrun) hw
      refine ⟨g', h.stirred ?_⟩
      unfold Serving.after
      split
      · exact heff.andThen rfl (.of_same rfl rfl rfl)
      · exact heff
    · cases hs
      exact hidle i _ rfl (.of_same rfl rfl rfl)
  | clock now =>
    cases hstep
    exact ⟨g, h.sound.setClock now, h.sized.setClock now, h.owns, h.apart⟩

/-- The writes are inside where the connections own their items. -/
theorem Inv.copiesInside (h : Inv V g) : V.CopiesInside := by
  refine ⟨fun L s' it halloc => key_inClass h.sound h.sized L halloc, fun i w it hstate hread hcopy => ?_, ?_⟩
  · exact World.writesInside h.sound h.sized (h.owns i) hread hcopy
  · intro k p hp
    have htable := ((h.sound.mem_found_iff k p).mp hp).1
    exact (h.sized.fits p (.inl (h.sound.linked p htable).1)).nbytes_ge

theorem start_inv {limit : ℕ} {set : Settings} {mallocOk : ℕ → Bool} {hashpower : ℕ} {s₀ : Cache}
    (hinit : Cache.init limit set mallocOk hashpower = some s₀) (w : ℕ → World)
    (hnew : ∀ i, ∃ flagPrecmd flagShake noreply rbuf wbuf cas,
      (w i).conn = Conn.new flagPrecmd flagShake noreply rbuf wbuf cas) : ∃ g, Inv (start s₀ w) g := by
  obtain ⟨g, hinv, hsized⟩ := Service.sized_start hinit
  have hown : ∀ i, (w i).conn.own = none := by
    intro i
    obtain ⟨flagPrecmd, flagShake, noreply, rbuf, wbuf, cas, hw⟩ := hnew i
    rw [hw]
    rfl
  refine ⟨g, hinv.sound, hsized, fun i it hit => ?_, fun i j it hi => ?_⟩
  · cases (hown i).symm.trans hit
  · cases (hown i).symm.trans hi

/-- The invariant at the end of a calm run. -/
theorem inv_of_run {limit : ℕ} {set : Settings} {mallocOk : ℕ → Bool} {hashpower : ℕ} {s₀ : Cache}
    (hinit : Cache.init limit set mallocOk hashpower = some s₀) (w : ℕ → World)
    (hnew : ∀ i, ∃ flagPrecmd flagShake noreply rbuf wbuf cas,
      (w i).conn = Conn.new flagPrecmd flagShake noreply rbuf wbuf cas) {as : List Stir}
    (hcalm : EachStep step Calm (start s₀ w) as) (hrun : run step (start s₀ w) as = .ok V) :
    ∃ g, Inv V g := by
  have hall : Throughout step (fun V => ∃ g, Inv V g) (start s₀ w) as :=
    throughout_of_eachStep (I := fun V _ => ∃ g, Inv V g) (L := fun _ _ => True) (C := Calm)
      (fun V a as V' h _ hc hstep => inv_step h hc hstep) (fun V as h => h) (start_inv hinit w hnew)
      (eachStep_of_forall (fun _ _ => trivial) _ _) hcalm
  exact hall.last hrun

/-- In every run of the connections in which no failed `set` takes away the item of a
connection that holds a buffer, whatever is written into an item stays inside its chunk. -/
theorem copiesInside_throughout {limit : ℕ} {set : Settings} {mallocOk : ℕ → Bool} {hashpower : ℕ}
    {s₀ : Cache}
    (hinit : Cache.init limit set mallocOk hashpower = some s₀) (w : ℕ → World)
    (hnew : ∀ i, ∃ flagPrecmd flagShake noreply rbuf wbuf cas,
      (w i).conn = Conn.new flagPrecmd flagShake noreply rbuf wbuf cas) (as : List Stir)
    (hcalm : EachStep step Calm (start s₀ w) as) : Throughout step CopiesInside (start s₀ w) as := by
  refine throughout_of_eachStep (I := fun V _ => ∃ g, Inv V g) (L := fun _ _ => True) (C := Calm)
    (fun V a as V' h _ hc hstep => inv_step h hc hstep) (fun V as h => ?_) (start_inv hinit w hnew)
    (eachStep_of_forall (fun _ _ => trivial) _ _) hcalm
  obtain ⟨g, h⟩ := h
  exact h.copiesInside

/-- A connection reads some bytes and takes turns. -/
def reading (i : ℕ) (bs : List UInt8) (turns : ℕ) : List Stir :=
  .event i .read [.data bs] [.wrote 100] :: List.replicate turns (.turn i)

/-- A key is set, and the answer is sent. -/
def setShort : List Stir := reading 0 (bytes "set a 0 0 1" ++ crlf) 2 ++ reading 0 (120 :: crlf) 3

/-- A turn that does not parse, or whose connection holds no buffer. -/
def Bufferless (V : Server) : Stir → Prop
  | .turn i => (V.conn i).world.conn.state ≠ .connParseCmd ∨ (V.conn i).world.conn.rnbuf = .dangling
  | _ => True

instance (V : Server) (a : Stir) : Decidable (V.Bufferless a) := by
  unfold Bufferless
  split <;> infer_instance

theorem Bufferless.calm (h : V.Bufferless a) : V.Calm a := by
  cases a with
  | turn i =>
    rintro - ⟨hstate, -, ⟨bs, hbs⟩, -⟩
    rcases h with h | h
    · exact h hstate
    · cases h.symm.trans hbs
  | event | clock => trivial

theorem copiesInside_setShort : ∃ s, Cache.init 1 Service.smallSettings (fun _ => true) 0 = some s ∧
    Throughout step CopiesInside (start s fun _ => Serving.fresh s) setShort := by
  have htrial : (Cache.init 1 Service.smallSettings (fun _ => true) 0).any (fun s =>
      decide (EachStep step Bufferless (start s fun _ => Serving.fresh s) setShort)) = true := by
    decide +kernel
  obtain ⟨s, hinit, hp⟩ := Service.exists_init htrial
  have hcalm := (of_decide_eq_true hp).mono (D := Calm) fun _ _ => Bufferless.calm
  exact ⟨s, hinit, copiesInside_throughout hinit (fun _ => Serving.fresh s)
    (fun _ => ⟨false, false, false, _, _, 0, rfl⟩) setShort hcalm⟩

/-- Another connection sends a `cas` line, and in the same read a `set` of the key that is
too large, with as many bytes behind it as the first line has announced. -/
def snatching : List Stir :=
  setShort ++ reading 1 (bytes "cas b 0 0 60 1" ++ crlf ++ bytes "set a 0 0 9000" ++ crlf ++
    List.replicate 62 121 ++ crlf) 3

/-- The connection copies a value into an item of another length. -/
def mismatch (V : Server) : Bool :=
  decide ((V.conn 1).world.conn.state = .connNread) &&
  match (V.serving 1).world.readBlock with
  | .ok (w, true) =>
    decide (w.conn.rnbufLen = w.conn.rnbufRlen ∧ w.conn.cmd ≠ .error) &&
    (match w.conn.rnbuf with
      | .live _ => w.conn.item.any fun it => decide (w.conn.rnbufLen ≠ w.cache.items.nbytes it)
      | _ => false)
  | _ => false

/-- The refused `set` has put the item that it removed in the place of the one of the `cas`
line, and 62 bytes are copied into an item of three. -/
theorem not_copiesInside_snatching : ∃ s, Cache.init 1 Service.smallSettings (fun _ => true) 0 = some s ∧
    ¬Throughout step CopiesInside (start s fun _ => Serving.fresh s) snatching := by
  have htrial : (Cache.init 1 Service.smallSettings (fun _ => true) 0).any (fun s =>
      (run step (start s fun _ => Serving.fresh s) snatching).toOption.any mismatch) = true := by
    decide +kernel
  obtain ⟨s, hinit, hp⟩ := Service.exists_init htrial
  refine ⟨s, hinit, fun h => ?_⟩
  cases hrun : run step (start s fun _ => Serving.fresh s) snatching with
  | error e => simp [hrun, Except.toOption] at hp
  | ok V =>
    have hp : mismatch V = true := by simpa [hrun, Except.toOption] using hp
    have hinside : V.CopiesInside := h.last hrun
    unfold mismatch at hp
    simp only [Bool.and_eq_true, decide_eq_true_eq] at hp
    obtain ⟨hstate, hp⟩ := hp
    split at hp
    · rename_i w hread
      simp only [Bool.and_eq_true, decide_eq_true_eq] at hp
      obtain ⟨⟨hlen, hcmd⟩, hp⟩ := hp
      split at hp
      · rename_i bs hlive
        obtain ⟨it, hitem, hne⟩ := (Option.any_eq_true _ _).mp hp
        exact of_decide_eq_true hne (hinside.values 1 w it hstate hread ⟨hlen, hcmd, hitem, bs, hlive⟩).len
      · cases hp
    · cases hp

end Server

/-- The cache of a server that was started: clients have sent it requests, or the machines
of its connections have worked on it and none has lost the item it waits to fill. -/
inductive Cache.Reached (s : Cache) : Prop
  | requests {limit : ℕ} {set : Settings} {mallocOk : ℕ → Bool} {hashpower : ℕ} {s₀ : Cache}
      (hinit : Cache.init limit set mallocOk hashpower = some s₀) (as : List Action) (st : Service)
      (hrun : run Service.step (Service.start s₀) as = .ok st) (now : UInt32)
      (hs : s = { st.cache with clock := now })
  | connections {limit : ℕ} {set : Settings} {mallocOk : ℕ → Bool} {hashpower : ℕ} {s₀ : Cache}
      (hinit : Cache.init limit set mallocOk hashpower = some s₀) (w : ℕ → World)
      (hnew : ∀ i, ∃ flagPrecmd flagShake noreply rbuf wbuf cas,
        (w i).conn = Conn.new flagPrecmd flagShake noreply rbuf wbuf cas)
      (as : List Stir) (V : Server) (hcalm : EachStep Server.step Server.Calm (Server.start s₀ w) as)
      (hrun : run Server.step (Server.start s₀ w) as = .ok V) (hs : s = V.cache)

/-- A cache that was reached has a shape, in which the items fit their chunks. -/
theorem Cache.Reached.sound {s : Cache} (h : s.Reached) : ∃ g, Sound s g ∧ Sized s g := by
  cases h with
  | requests hinit as st hrun now hs =>
    obtain ⟨g, hinv, hsized⟩ := Service.sized_of_run hinit hrun
    exact ⟨g, hs ▸ hinv.sound.setClock now, hs ▸ hsized.setClock now⟩
  | connections hinit w hnew as V hcalm hrun hs =>
    obtain ⟨g, hinv⟩ := Server.inv_of_run hinit w hnew hcalm hrun
    exact ⟨g, hs ▸ hinv.sound, hs ▸ hinv.sized⟩

theorem Cache.reached_init {limit : ℕ} {set : Settings} {mallocOk : ℕ → Bool} {hashpower : ℕ} {s : Cache}
    (hinit : Cache.init limit set mallocOk hashpower = some s) : s.Reached :=
  .requests hinit [] (Service.start s) rfl s.clock rfl

end MiniMemcached
