import MiniMemcached.Cache.CommandPaths
import MiniMemcached.Runs.Steps

/-! The cache in service. Any number of connections send requests; a storage request
comes in two parts, and between its line and its data block the requests of the
other connections are served. An action that the state of its connection does
not allow changes nothing but the clock. `current_time` gives one reading to each action. -/

namespace MiniMemcached

open Runs

/-- A connection that waits for the data block of its storage line. -/
structure Pending where
  it : Ptr
  line : StoreLine

inductive Request
  | store (L : StoreLine) (hcmd : L.cmd ≠ .error)
  | block (bytes : List UInt8)
  | get (key : List UInt8)
  | delete (key : List UInt8)

structure Action where
  now : UInt32
  conn : ℕ
  req : Request

inductive Reply
  | none
  | waiting
  | noMemory
  | stored (stat : StoreStat)
  | value (it : Ptr)
  | miss
  | badFormat
  | deleted
  | notFound
  deriving DecidableEq

/-- The cache, the connections that wait for a block, and the last answer. -/
structure Service where
  cache : Cache
  pending : ℕ → Option Pending
  reply : Reply

namespace Service

/-- The cache at the time of an action. -/
def at_ (st : Service) (a : Action) : Cache := { st.cache with clock := a.now }

def step (st : Service) (a : Action) : Result Service :=
  match a.req, st.pending a.conn with
  | .store L _, none => do
    match ← (st.at_ a).commandStore L with
    | (s, some it) =>
      pure { cache := s, pending := Function.update st.pending a.conn (some ⟨it, L⟩), reply := .waiting }
    | (s, none) => pure { st with cache := s, reply := .noMemory }
  | .block bytes, some P =>
    if (bytes.length : ℤ) = P.line.vlen then do
      let r ← (st.at_ a).commandBlock P.it P.line.cmd bytes
      pure { cache := r.1, pending := Function.update st.pending a.conn none, reply := .stored r.2.1 }
    else .ok { st with cache := st.at_ a, reply := .none }
  | .get key, none =>
    if KEY_MAX_LENGTH < key.length then .ok { st with cache := st.at_ a, reply := .badFormat }
    else do
      match ← (st.at_ a).commandGet key with
      | (s, some it) => pure { st with cache := s, reply := .value it }
      | (s, none) => pure { st with cache := s, reply := .miss }
  | .delete key, none => do
    match ← (st.at_ a).removeKey key with
    | (s, true) => pure { st with cache := s, reply := .deleted }
    | (s, false) => pure { st with cache := s, reply := .notFound }
  | _, _ => .ok { st with cache := st.at_ a, reply := .none }

/-- A server that has just started. -/
def start (s : Cache) : Service where
  cache := s
  pending _ := none
  reply := .none

/-- No connection waits for a data block. -/
def Quiescent (st : Service) : Prop := ∀ c, st.pending c = none

/-- The connection is in a state in which it may send the request. -/
def Allowed (st : Service) (a : Action) : Prop :=
  match a.req, st.pending a.conn with
  | .block bytes, some P => (bytes.length : ℤ) = P.line.vlen
  | .block _, none => False
  | _, some _ => False
  | _, none => True

/-- What one action does, in primitive steps from `st.at_ a`. -/
inductive StepActs (st : Service) (g : Shape) (a : Action) : List Act → Service → Prop
  | ignored {st' : Service} (hno : ¬st.Allowed a)
      (hst : st' = { st with cache := st.at_ a, reply := .none }) : StepActs st g a [] st'
  | longKey {st' : Service} (k : List UInt8) (hreq : a.req = .get k)
      (hk : KEY_MAX_LENGTH < k.length) (hst : st' = { st with cache := st.at_ a, reply := .badFormat }) :
      StepActs st g a [] st'
  | get {st' : Service} (k : List UInt8) (hreq : a.req = .get k) (hfree : st.pending a.conn = none)
      (hk : k.length ≤ KEY_MAX_LENGTH) (acts : List Act) (r : Option Ptr)
        (hget : GetActs (st.at_ a) g k acts r)
      (hpend : st'.pending = st.pending) (hreply : st'.reply = r.elim .miss .value) :
      StepActs st g a (.quiet :: acts ++ [.quiet]) st'
  | delete {st' : Service} (k : List UInt8) (hreq : a.req = .delete k)
      (hfree : st.pending a.conn = none) (acts : List Act) (b : Bool)
        (hrem : RemoveActs (st.at_ a) g k acts b) (hpend : st'.pending = st.pending)
      (hreply : st'.reply = if b then .deleted else .notFound) : StepActs st g a acts st'
  | accepted {st' : Service} (L : StoreLine) (hcmd : L.cmd ≠ .error) (hreq : a.req = .store L hcmd)
      (hfree : st.pending a.conn = none) (it : Ptr) (acts : List Act)
      (hline : LineActs (st.at_ a) g L acts (some it))
      (hpend : st'.pending = Function.update st.pending a.conn (some ⟨it, L⟩))
      (hreply : st'.reply = .waiting) : StepActs st g a acts st'
  | refused {st' : Service} (L : StoreLine) (hcmd : L.cmd ≠ .error) (hreq : a.req = .store L hcmd)
      (hfree : st.pending a.conn = none) (acts : List Act) (hline : LineActs (st.at_ a) g L acts none)
      (hpend : st'.pending = st.pending) (hreply : st'.reply = .noMemory) : StepActs st g a acts st'
  | block {st' : Service} (P : Pending) (bytes : List UInt8) (hreq : a.req = .block bytes)
      (hP : st.pending a.conn = some P) (hlen : (bytes.length : ℤ) = P.line.vlen) (acts : List Act)
      (stat : StoreStat) (hstore : StoreActs (st.at_ a) g P.it P.line.cmd acts stat)
      (hlinked : ∀ p, .link p ∈ acts → st'.cache.items.key p = P.line.key)
      (hkept : .link P.it ∈ acts →
        Kept ((st.at_ a).writeValue P.it bytes).items st'.cache.items P.it)
      (hpend : st'.pending = Function.update st.pending a.conn none)
      (hreply : st'.reply = .stored stat) :
      StepActs st g a (.fill P.it (st.cache.items.itemFlag P.it) :: .quiet :: acts ++ [.quiet]) st'

/-- The invariant of the service: the items in flight are those of the waiting
connections, one each, with the headers that their lines left. -/
structure Inv (st : Service) (g : Shape) : Prop where
  sound : Sound st.cache g
  flight : ∀ p, p ∈ g.inFlight ↔ ∃ c P, st.pending c = some P ∧ P.it = p
  distinct : ∀ c c' P P', st.pending c = some P → st.pending c' = some P' → P.it = P'.it → c = c'
  filled : ∀ c P, st.pending c = some P → Filled st.cache P.it P.line

end Service

/-- What a path that does not write an item leaves of its header. -/
theorem Filled.evolves {s s' : Cache} {g g' : Shape} {K : Set Ptr} {it : Ptr} {L : StoreLine}
    (h : Filled s it L) (hev : Evolves s g s' g' K) (hit : it ∈ K) : Filled s' it L :=
  ⟨by rw [hev.key (.inr hit), h.key], by rw [hev.nkey it (.inr hit), h.nkey],
    by rw [hev.itemFlag it hit, h.itemFlag], by rw [hev.nbytes it (.inr hit), h.nbytes],
    by rw [hev.cas it (.inr hit), h.cas], by rw [hev.refcount it hit, h.refcount]⟩

theorem GetActs.flight {s : Cache} {g : Shape} {k : List UInt8} {acts : List Act} {r : Option Ptr}
    (h : GetActs s g k acts r) (A : Set Ptr) : acts.foldl Act.flight A = A := by
  cases h <;> rfl

theorem GetActs.writes {s : Cache} {g : Shape} {k : List UInt8} {acts : List Act} {r : Option Ptr}
    (h : GetActs s g k acts r) : ∀ a ∈ acts, a.writes = none := by
  cases h <;> simp [Act.writes]

theorem linkAct_flight (s : Cache) (it : Ptr) (A : Set Ptr) :
    (linkAct s it).flight A = {p | p ∈ A ∧ p ≠ it} := by
  unfold linkAct
  split_ifs <;> rfl

theorem touchActs_flight (s : Cache) (p : Ptr) (A : Set Ptr) :
    (touchActs s p).foldl Act.flight A = A := by
  unfold touchActs
  split_ifs <;> rfl

theorem touchActs_writes (s : Cache) (p : Ptr) : ∀ a ∈ touchActs s p, a.writes = none := by
  unfold touchActs
  split_ifs <;> simp [Act.writes]

/-- A storage command ends the flight of its item, and of no other one. -/
theorem StoreActs.flight {s : Cache} {g : Shape} {it : Ptr} {cmd : Nread} {acts : List Act}
    {stat : StoreStat} (h : StoreActs s g it cmd acts stat) :
    acts.foldl Act.flight g.inFlight = {p | p ∈ g.inFlight ∧ p ≠ it} := by
  cases h with
  | joined old new acts hget hcmd hcas hok hnew =>
    simp only [List.foldl_append, hget.flight, List.foldl_cons, List.foldl_nil, Act.flight]
    ext p
    constructor
    · rintro ⟨⟨hp | hp, hpn⟩, hpi⟩
      · exact absurd hp hpn
      · exact ⟨hp, hpi⟩
    · rintro ⟨hp, hpi⟩
      exact ⟨⟨.inr hp, fun e => hnew (e ▸ hp)⟩, hpi⟩
  | taken old acts hget hcmd =>
    simp only [List.foldl_append, hget.flight, touchActs_flight, List.foldl_cons, List.foldl_nil,
      Act.flight]
  | noKey acts hget
  | new acts hget
  | replaced old acts hget
  | swapped old acts hget
  | stale old acts hget
  | full old acts hget =>
    simp only [List.foldl_append, hget.flight, List.foldl_cons, List.foldl_nil, linkAct_flight]
    simp only [Act.flight]

theorem StoreActs.writes {s : Cache} {g : Shape} {it : Ptr} {cmd : Nread} {acts : List Act}
    {stat : StoreStat} (h : StoreActs s g it cmd acts stat) {p : Ptr} (hp : p ∈ g.inFlight)
    (hpi : p ≠ it) : ∀ a ∈ acts, a.writes ≠ some p := by
  have hit : ¬it = p := fun e => hpi e.symm
  have hget : ∀ {acts r}, GetActs s g (s.items.key it) acts r → ∀ a ∈ acts, a.writes ≠ some p :=
    fun hget a ha => by simp [hget.writes a ha]
  cases h with
  | joined old new acts hg hcmd hcas hok hnew =>
    have hne : ¬new = p := fun e => hnew (e ▸ hp)
    exact List.forall_mem_append.mpr ⟨hget hg, by simp [Act.writes, hit, hne]⟩
  | taken old acts hg hcmd =>
    refine List.forall_mem_append.mpr ⟨List.forall_mem_append.mpr ⟨hget hg, fun a ha => ?_⟩,
      by simp [Act.writes, hit]⟩
    simp [touchActs_writes s old a ha]
  | noKey acts hg
  | stale old acts hg
  | full old acts hg => exact List.forall_mem_append.mpr ⟨hget hg, by simp [Act.writes, hit]⟩
  | new acts hg
  | replaced old acts hg
  | swapped old acts hg =>
    refine List.forall_mem_append.mpr ⟨hget hg, ?_⟩
    unfold linkAct
    split_ifs <;> simp [Act.writes, hit]

theorem RemoveActs.flight {s : Cache} {g : Shape} {k : List UInt8} {acts : List Act} {b : Bool}
    (h : RemoveActs s g k acts b) (A : Set Ptr) : acts.foldl Act.flight A = A := by
  cases h with
  | miss acts hget => cases hget <;> rfl
  | hit p => rfl

/-- A storage line that gets no item writes none. -/
theorem LineActs.quiet {s : Cache} {g : Shape} {L : StoreLine} {acts : List Act}
    (h : LineActs s g L acts none) (A : Set Ptr) :
    (∀ a ∈ acts, a.writes = none) ∧ acts.foldl Act.flight A = A := by
  cases h with
  | refused hno hcmd => exact ⟨by simp [Act.writes], rfl⟩
  | removed acts b hno hcmd hrem =>
    exact ⟨List.forall_mem_cons.mpr ⟨rfl, hrem.writes⟩, hrem.flight A⟩

namespace Service

variable {st st' : Service} {g : Shape} {a : Action}

/-- A step that writes no item in flight and ends no flight. -/
theorem Inv.quiet (h : Inv st g) {g' : Shape} {acts : List Act}
    (hsteps : Steps (st.at_ a) g acts st'.cache g') (hw : ∀ b ∈ acts, b.writes = none)
    (hf : acts.foldl Act.flight g.inFlight = g.inFlight) (hpend : st'.pending = st.pending) :
    Inv st' g' := by
  have hs : Sound (st.at_ a) g := h.sound.setClock a.now
  have hev := hsteps.evolves hs (K := g.inFlight) (fun _ hp => hp) fun b hb => by simp [hw b hb]
  refine ⟨hsteps.sound hs, fun p => ?_, ?_, fun c P hP => ?_⟩
  · rw [hsteps.flight, hf, hpend, h.flight]
  · rw [hpend]; exact h.distinct
  · rw [hpend] at hP
    have hfill : Filled (st.at_ a) P.it P.line := by
      have := h.filled c P hP
      exact ⟨this.key, this.nkey, this.itemFlag, this.nbytes, this.cas, this.refcount⟩
    exact hfill.evolves hev ((h.flight _).mpr ⟨c, P, hP, rfl⟩)

/-- A step that keeps the other headers and changes the flights as the connections do. -/
theorem Inv.update (h : Inv st g) {g' : Shape} {acts : List Act} {o : Option Pending}
    (hsteps : Steps (st.at_ a) g acts st'.cache g')
    (hpend : st'.pending = Function.update st.pending a.conn o)
    (hflight : ∀ p, p ∈ g'.inFlight ↔
      (∃ c P, c ≠ a.conn ∧ st.pending c = some P ∧ P.it = p) ∨ ∃ P, o = some P ∧ P.it = p)
    (hw : ∀ c P, c ≠ a.conn → st.pending c = some P → ∀ b ∈ acts, b.writes ≠ some P.it)
    (hnew : ∀ P, o = some P → Filled st'.cache P.it P.line ∧
      ∀ c P', c ≠ a.conn → st.pending c = some P' → P'.it ≠ P.it) : Inv st' g' := by
  have hs : Sound (st.at_ a) g := h.sound.setClock a.now
  have hcases : ∀ c P, st'.pending c = some P → c = a.conn ∧ o = some P ∨
      c ≠ a.conn ∧ st.pending c = some P := by
    intro c P hP
    rw [hpend, Function.update_apply] at hP
    split_ifs at hP with hc
    · exact .inl ⟨hc, hP⟩
    · exact .inr ⟨hc, hP⟩
  refine ⟨hsteps.sound hs, fun p => ?_, fun c c' P P' hP hP' e => ?_, fun c P hP => ?_⟩
  · rw [hflight, hpend]
    constructor
    · rintro (⟨c, P, hc, hP, rfl⟩ | ⟨P, hP, rfl⟩)
      · exact ⟨c, P, by rw [Function.update_of_ne hc]; exact hP, rfl⟩
      · exact ⟨a.conn, P, by rw [Function.update_self]; exact hP, rfl⟩
    · rintro ⟨c, P, hP, rfl⟩
      rw [← hpend] at hP
      rcases hcases c P hP with ⟨-, hP⟩ | ⟨hc, hP⟩
      · exact .inr ⟨P, hP, rfl⟩
      · exact .inl ⟨c, P, hc, hP, rfl⟩
  · rcases hcases c P hP with ⟨rfl, ho⟩ | ⟨hc, hP⟩ <;>
      rcases hcases c' P' hP' with ⟨rfl, ho'⟩ | ⟨hc', hP'⟩
    · rfl
    · exact absurd e.symm ((hnew P ho).2 c' P' hc' hP')
    · exact absurd e ((hnew P' ho').2 c P hc hP)
    · exact h.distinct c c' P P' hP hP' e
  · rcases hcases c P hP with ⟨-, ho⟩ | ⟨hc, hP⟩
    · exact (hnew P ho).1
    · have hfill : Filled (st.at_ a) P.it P.line := by
        have := h.filled c P hP
        exact ⟨this.key, this.nkey, this.itemFlag, this.nbytes, this.cas, this.refcount⟩
      have hit : P.it ∈ g.inFlight := (h.flight _).mpr ⟨c, P, hP, rfl⟩
      exact hfill.evolves (hsteps.evolves hs (K := {P.it}) (by simpa using hit) fun b hb => by
        simpa using hw c P hc hP b hb) rfl

/-- A storage line that got an item. -/
theorem Inv.accepted (h : Inv st g) {g' : Shape} {s' : Cache} {L : StoreLine} {it : Ptr} {size id : ℕ}
    (hP : st.pending a.conn = none)
    (hsteps : Steps (st.at_ a) g [.grant it size id, .fill it L.flags.toUInt8] s' g')
    (hnew : it ∉ g.inFlight) (hfill : Filled s' it L) (r : Reply) :
    Inv ⟨s', Function.update st.pending a.conn (some ⟨it, L⟩), r⟩ g' := by
  have hout : ∀ c P, st.pending c = some P → P.it ≠ it := fun c P hP e =>
    hnew ((h.flight it).mpr ⟨c, P, hP, e⟩)
  set t : Service := ⟨s', Function.update st.pending a.conn (some ⟨it, L⟩), r⟩
  have hpath : Steps (st.at_ a) g [.grant it size id, .fill it L.flags.toUInt8] t.cache g' := hsteps
  have hpend : t.pending = Function.update st.pending a.conn (some ⟨it, L⟩) := rfl
  refine h.update hpath hpend (fun p => ?_) (fun c P _ hP => ?_) ?_
  · rw [hsteps.flight]
    simp only [List.foldl_cons, List.foldl_nil, Act.flight]
    constructor
    · rintro (rfl | hp)
      · exact .inr ⟨_, rfl, rfl⟩
      · obtain ⟨c, P, hP', rfl⟩ := (h.flight p).mp hp
        refine .inl ⟨c, P, ?_, hP', rfl⟩
        rintro rfl
        rw [hP] at hP'
        cases hP'
    · rintro (⟨c, P, -, hP', rfl⟩ | ⟨P, hP', rfl⟩)
      · exact .inr ((h.flight _).mpr ⟨c, P, hP', rfl⟩)
      · cases hP'; exact .inl rfl
  · simpa [Act.writes] using (hout c P hP).symm
  · rintro P ⟨rfl⟩
    exact ⟨hfill, fun c P' _ hP' => hout c P' hP'⟩

end Service

/-- The separator and the value do not touch the key. -/
theorem key_writeValue (s : Cache) (it : Ptr) (bytes : List UInt8) (p : Ptr) :
    (s.writeValue it bytes).items.key p = s.items.key p := by
  by_cases hp : p = it
  · subst hp
    simp only [Cache.writeValue, Items.key, Items.setData, Function.update_self, Items.realDataAddr]
    rw [bytesAt_memcpy_of_disjoint _ (.inl (by omega)), bytesAt_memcpy_of_disjoint _ (.inl (by omega))]
  · simp [Cache.writeValue, Items.key, Items.setData, hp]

theorem value_writeValue (s : Cache) (it : Ptr) {bytes : List UInt8}
    (h : bytes.length = (s.items.nbytes it).toNat) : (s.writeValue it bytes).items.value it = bytes := by
  simp only [Cache.writeValue, Items.value, Items.setData, Function.update_self, Items.realDataAddr, ← h]
  exact bytesAt_memcpy_self _ _ _

theorem value_writeValue_of_ne (s : Cache) {it p : Ptr} (bytes : List UInt8) (hp : p ≠ it) :
    (s.writeValue it bytes).items.value p = s.items.value p := by
  simp only [Cache.writeValue, Items.value, Items.setData, Function.update_of_ne hp, Items.realDataAddr]

theorem GetActs.writeValue {s : Cache} {g : Shape} {it : Ptr} {bytes k : List UInt8} {acts : List Act}
    {r : Option Ptr} (h : GetActs (s.writeValue it bytes) g k acts r) : GetActs s g k acts r := by
  cases h with
  | miss hm => exact .miss fun p hp => by rw [← key_writeValue s it bytes]; exact hm p hp
  | live p hp hk hl => exact .live p hp (by rw [← key_writeValue s it bytes]; exact hk) hl
  | expired p hp hk he => exact .expired p hp (by rw [← key_writeValue s it bytes]; exact hk) he

theorem StoreActs.writeValue {s : Cache} {g : Shape} {it : Ptr} {bytes : List UInt8} {cmd : Nread}
    {acts : List Act} {stat : StoreStat} (h : StoreActs (s.writeValue it bytes) g it cmd acts stat) :
    StoreActs s g it cmd acts stat := by
  have hget : ∀ {acts r}, GetActs (s.writeValue it bytes) g ((s.writeValue it bytes).items.key it)
      acts r → GetActs s g (s.items.key it) acts r := fun h => by
    rw [key_writeValue] at h
    exact h.writeValue
  cases h with
  | noKey acts hg hcmd => exact .noKey acts (hget hg) hcmd
  | new acts hg hcmd => exact .new acts (hget hg) hcmd
  | taken old acts hg hcmd => exact .taken old acts (hget hg) hcmd
  | replaced old acts hg hcmd => exact .replaced old acts (hget hg) hcmd
  | swapped old acts hg hcmd hcas => exact .swapped old acts (hget hg) hcmd hcas
  | stale old acts hg hcmd hcas => exact .stale old acts (hget hg) hcmd hcas
  | full old acts hg hcmd hcas hno => exact .full old acts (hget hg) hcmd hcas hno
  | joined old new acts hg hcmd hcas hok hnew =>
    exact .joined old new acts (hget hg) hcmd hcas hok hnew

namespace Service

variable {st st' : Service} {g : Shape} {a : Action}

/-- A block that has been stored ends the flight of its item, and no other. -/
theorem Inv.stored (h : Inv st g) {P : Pending} (hP : st.pending a.conn = some P) {g' : Shape}
    {s' : Cache} {f : UInt8} {cmd : Nread} {acts : List Act} {stat : StoreStat}
    (hacts : StoreActs (st.at_ a) g P.it cmd acts stat)
    (hsteps : Steps (st.at_ a) g ([.fill P.it f] ++ (.quiet :: acts ++ [.quiet])) s' g') (r : Reply) :
    Inv ⟨s', Function.update st.pending a.conn none, r⟩ g' := by
  set t : Service := ⟨s', Function.update st.pending a.conn none, r⟩
  have hpath : Steps (st.at_ a) g ([.fill P.it f] ++ (.quiet :: acts ++ [.quiet])) t.cache g' := hsteps
  have hpend : t.pending = Function.update st.pending a.conn none := rfl
  have hflight : g'.inFlight = {p | p ∈ g.inFlight ∧ p ≠ P.it} := by
    rw [Steps.flight hsteps, ← hacts.flight]
    simp only [List.cons_append, List.nil_append, List.foldl_cons, List.foldl_append,
      List.foldl_nil, Act.flight]
  refine h.update hpath hpend (fun p => ?_) (fun c P' hc hP' b hb => ?_) (by simp)
  · rw [hflight]
    constructor
    · rintro ⟨hp, hne⟩
      obtain ⟨c', P', hP', rfl⟩ := (h.flight p).mp hp
      refine .inl ⟨c', P', ?_, hP', rfl⟩
      rintro rfl
      rw [hP] at hP'
      cases hP'
      exact hne rfl
    · rintro (⟨c', P', hc', hP', rfl⟩ | ⟨P', hP', -⟩)
      · exact ⟨(h.flight _).mpr ⟨c', P', hP', rfl⟩, fun e => hc' (h.distinct c' _ P' P hP' hP e)⟩
      · cases hP'
  · have hin : P'.it ∈ g.inFlight := (h.flight _).mpr ⟨c, P', hP', rfl⟩
    have hne : P'.it ≠ P.it := fun e => hc (h.distinct c _ P' P hP' hP e)
    have hne' : ¬P.it = P'.it := fun e => hne e.symm
    simp only [List.cons_append, List.nil_append, List.mem_cons, List.mem_append,
      List.not_mem_nil, or_false] at hb
    rcases hb with rfl | rfl | hb | rfl
    · simpa [Act.writes] using hne'
    · simp [Act.writes]
    · exact hacts.writes hin hne b hb
    · simp [Act.writes]

/-- A block either is a `cas` on a key without a live item or returns. -/
theorem Inv.block_spec (h : Inv st g) {bytes : List UInt8} (hreq : a.req = .block bytes) :
    (st.step a = .error .nullPointer ∧ ∃ P, st.pending a.conn = some P ∧
      P.line.cmd = .cas ∧ ∃ acts, GetActs (st.at_ a) g P.line.key acts none) ∨
    ∃ st' g' acts, st.step a = .ok st' ∧ Inv st' g' ∧ Steps (st.at_ a) g acts st'.cache g' ∧
      StepActs st g a acts st' := by
  have hs : Sound (st.at_ a) g := h.sound.setClock a.now
  have hsame : ∀ r, Inv { st with cache := st.at_ a, reply := r } g := fun r =>
    h.quiet (a := a) (.nil (st.at_ a, g)) (by simp) rfl rfl
  unfold step
  simp only [hreq]
  cases hP : st.pending a.conn with
  | none => exact .inr ⟨_, g, [], rfl, hsame _, .nil _, .ignored (by simp [Allowed, hreq, hP]) rfl⟩
  | some P =>
    by_cases hlen : (bytes.length : ℤ) = P.line.vlen
    · simp only [if_pos hlen]
      have hit : P.it ∈ g.inFlight := (h.flight _).mpr ⟨_, P, hP, rfl⟩
      have hwrite := Steps.writeValue (s := st.at_ a) hit bytes
      have hkey : ((st.at_ a).writeValue P.it bytes).items.key P.it = P.line.key := by
        rw [key_writeValue]
        exact (h.filled _ P hP).key
      unfold Cache.commandBlock
      rcases Steps.storeItem (hwrite.sound hs) hit P.line.cmd with ⟨hcmd, ⟨acts, hget⟩, herr⟩ |
        ⟨s', g', acts, stat, c, heq, hsteps, hacts, hlinked, -⟩
      · rw [hkey] at hget
        exact .inl ⟨by rw [herr, Result.error_bind], P, rfl, hcmd, acts, hget.writeValue⟩
      · simp only [heq, Result.ok_bind, Result.pure_eq]
        have hstore := hacts.writeValue
        have hpath := hwrite.append hsteps
        have hkept : .link P.it ∈ acts →
            Kept ((st.at_ a).writeValue P.it bytes).items s'.items P.it := by
          intro hl
          obtain ⟨hnf, hnd⟩ := hstore.link_self hit hl
          exact hsteps.kept (hwrite.sound hs) (.inr hit) (by simp [hnf]) (by simp [hnd])
        exact .inr ⟨_, g', _, rfl, h.stored hP hstore hpath _, hpath,
          .block P bytes hreq hP hlen acts stat hstore (fun p hp => (hlinked p hp).trans hkey)
            hkept rfl rfl⟩
    · simp only [if_neg hlen]
      exact .inr ⟨_, g, [], rfl, hsame _, .nil _, .ignored (by simp [Allowed, hreq, hP, hlen]) rfl⟩

/-- An action returns, except for a `cas` block on a key without a live item. -/
theorem step_spec (h : Inv st g) (a : Action) :
    (st.step a = .error .nullPointer ∧ ∃ bytes P, a.req = .block bytes ∧ st.pending a.conn = some P ∧
      P.line.cmd = .cas ∧ ∃ acts, GetActs (st.at_ a) g P.line.key acts none) ∨
    ∃ st' g' acts, st.step a = .ok st' ∧ Inv st' g' ∧ Steps (st.at_ a) g acts st'.cache g' ∧
      StepActs st g a acts st' := by
  have hs : Sound (st.at_ a) g := h.sound.setClock a.now
  have hsame : ∀ r, Inv { st with cache := st.at_ a, reply := r } g := fun r =>
    h.quiet (a := a) (.nil (st.at_ a, g)) (by simp) rfl rfl
  cases hreq : a.req with
  | store L hcmd =>
    unfold step
    simp only [hreq]
    cases hP : st.pending a.conn with
    | some P => exact .inr ⟨_, g, [], rfl, hsame _, .nil _, .ignored (by simp [Allowed, hreq, hP]) rfl⟩
    | none =>
      obtain ⟨s', g', acts, r, heq, hsteps, hline, hfill⟩ := Steps.commandStore hs L
      simp only [heq, Result.ok_bind, Result.pure_eq]
      cases r with
      | none =>
        exact .inr ⟨_, g', acts, rfl, h.quiet hsteps (hline.quiet g.inFlight).1
          (hline.quiet g.inFlight).2 rfl, hsteps, .refused L hcmd hreq hP acts hline rfl rfl⟩
      | some it =>
        refine .inr ⟨_, g', acts, rfl, ?_, hsteps, .accepted L hcmd hreq hP it acts hline rfl rfl⟩
        cases hline with
        | granted _ hok hE hnew => exact h.accepted hP hsteps hnew (hfill it rfl) .waiting
  | block bytes =>
    rcases h.block_spec hreq with ⟨herr, P, hP, hcas⟩ | hok
    · exact .inl ⟨herr, bytes, P, rfl, hP, hcas⟩
    · exact .inr hok
  | get k =>
    unfold step
    simp only [hreq]
    cases hP : st.pending a.conn with
    | some P => exact .inr ⟨_, g, [], rfl, hsame _, .nil _, .ignored (by simp [Allowed, hreq, hP]) rfl⟩
    | none =>
      by_cases hk : KEY_MAX_LENGTH < k.length
      · simp only [if_pos hk]
        exact .inr ⟨_, g, [], rfl, hsame _, .nil _, .longKey k hreq hk rfl⟩
      · obtain ⟨s', g', acts, r, heq, hsteps, hget, -⟩ := Steps.itemGet hs k
        simp only [if_neg hk, Cache.commandGet, heq, Result.ok_bind, Result.pure_eq]
        have hw : ∀ b ∈ Act.quiet :: acts ++ [Act.quiet], b.writes = none := by
          simpa [or_imp, forall_and, Act.writes] using hget.writes
        have hf : (Act.quiet :: acts ++ [Act.quiet]).foldl Act.flight g.inFlight = g.inFlight := by
          simp only [List.cons_append, List.foldl_cons, List.foldl_append, List.foldl_nil, Act.flight,
            hget.flight]
        cases r with
        | none => exact .inr ⟨_, g', _, rfl, h.quiet hsteps hw hf rfl, hsteps,
            .get k hreq hP (by omega) acts none hget rfl rfl⟩
        | some p => exact .inr ⟨_, g', _, rfl, h.quiet hsteps hw hf rfl, hsteps,
            .get k hreq hP (by omega) acts (some p) hget rfl rfl⟩
  | delete k =>
    unfold step
    simp only [hreq]
    cases hP : st.pending a.conn with
    | some P => exact .inr ⟨_, g, [], rfl, hsame _, .nil _, .ignored (by simp [Allowed, hreq, hP]) rfl⟩
    | none =>
      obtain ⟨s', g', acts, b, heq, hsteps, hrem, -⟩ := Steps.removeKey hs k
      simp only [heq, Result.ok_bind, Result.pure_eq]
      cases b with
      | true => exact .inr ⟨_, g', _, rfl, h.quiet hsteps hrem.writes (hrem.flight _) rfl, hsteps,
          .delete k hreq hP acts true hrem rfl rfl⟩
      | false => exact .inr ⟨_, g', _, rfl, h.quiet hsteps hrem.writes (hrem.flight _) rfl, hsteps,
          .delete k hreq hP acts false hrem rfl rfl⟩

/-- An action leaves the other connections as they are. -/
theorem pending_of_step (hstep : st.step a = .ok st') {c : ℕ} (hc : c ≠ a.conn) :
    st'.pending c = st.pending c := by
  unfold step at hstep
  split at hstep
  · obtain ⟨⟨s, r⟩, -, hrest⟩ := Result.bind_eq_ok.mp hstep
    cases r <;> cases hrest
    · rfl
    · exact Function.update_of_ne hc _ _
  · split_ifs at hstep
    · obtain ⟨r, -, hrest⟩ := Result.bind_eq_ok.mp hstep
      cases hrest
      exact Function.update_of_ne hc _ _
    · cases hstep
      rfl
  · split_ifs at hstep
    · cases hstep
      rfl
    · obtain ⟨⟨s, r⟩, -, hrest⟩ := Result.bind_eq_ok.mp hstep
      cases r <;> cases hrest <;> rfl
  · obtain ⟨⟨s, r⟩, -, hrest⟩ := Result.bind_eq_ok.mp hstep
    cases r <;> cases hrest <;> rfl
  · cases hstep
    rfl

/-- A server that has served one connection waits for no other one. -/
theorem quiescent_of_one {s : Cache} {as : List Action} {c : ℕ} (hone : ∀ a ∈ as, a.conn = c)
    (hrun : run step (start s) as = .ok st) (hP : st.pending c = none) : st.Quiescent := by
  have haux : ∀ {st₀ : Service} {as : List Action}, (∀ a ∈ as, a.conn = c) →
      run step st₀ as = .ok st → ∀ d ≠ c, st.pending d = st₀.pending d := by
    intro st₀ as hone hrun d hd
    induction as generalizing st₀ with
    | nil => cases hrun; rfl
    | cons a as ih =>
      obtain ⟨st₁, hstep, hrest⟩ := (run_cons_eq_ok step).mp hrun
      rw [ih (fun b hb => hone b (List.mem_cons_of_mem _ hb)) hrest]
      exact pending_of_step hstep (by rw [hone a (List.mem_cons_self ..)]; exact hd)
  intro d
  by_cases hd : d = c
  · rw [hd, hP]
  · rw [haux hone hrun d hd]
    rfl

/-! ### A small server -/

/-- Settings under which a page holds one or two chunks. -/
def smallSettings : Settings := { chunkSize := 48, itemSizeMax := 208 }

theorem set_ne_error : Nread.set ≠ .error := nofun

theorem add_ne_error : Nread.add ≠ .error := nofun

theorem cas_ne_error : Nread.cas ≠ .error := nofun

/-- A storage line and its data block. -/
def storing (now : UInt32) (conn : ℕ) (L : StoreLine) (hcmd : L.cmd ≠ .error) : List Action :=
  [⟨now, conn, .store L hcmd⟩, ⟨now, conn, .block [120, 13, 10]⟩]

/-- A run of the small server, with a memory limit and the number of bits of the hash
that select a bucket. -/
def trial (limit hashpower : ℕ) (as : List Action) : Option Service :=
  (Cache.init limit smallSettings (fun _ => true) hashpower).bind fun s =>
    (run step (start s) as).toOption

theorem exists_init {limit hashpower : ℕ} {p : Cache → Bool}
    (h : (Cache.init limit smallSettings (fun _ => true) hashpower).any p = true) :
    ∃ s, Cache.init limit smallSettings (fun _ => true) hashpower = some s ∧ p s = true := by
  cases hs : Cache.init limit smallSettings (fun _ => true) hashpower with
  | none => rw [hs] at h; cases h
  | some s => exact ⟨s, rfl, by simpa [hs] using h⟩

theorem exists_of_trial {limit hashpower : ℕ} {as : List Action} {p : Service → Bool}
    (h : (trial limit hashpower as).any p = true) :
    ∃ s st, Cache.init limit smallSettings (fun _ => true) hashpower = some s ∧
      run step (start s) as = .ok st ∧ p st = true := by
  rw [trial, Option.any_bind] at h
  obtain ⟨s, hs, h⟩ := exists_init h
  cases hst : run step (start s) as with
  | error e => simp [hst, Except.toOption] at h
  | ok st => exact ⟨s, st, hs, hst, by simpa [hst, Except.toOption] using h⟩

end Service

end MiniMemcached
