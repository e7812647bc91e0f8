import MiniMemcached.Service.Freshness

/-! Reading a value and swapping it. The ids of the entries grow, so an entry that still
has the id that was read is the one that was read; what was stored in between would have
a later one. -/

namespace MiniMemcached

open Maps Runs

/-- The request does not rebind the key, and if it reads it, it gets this value. -/
def Spares (owed : ℕ → Option Awaited) (k value : List UInt8) (flags : UInt8) (id : UInt64)
    (x : Action × Answer) : Prop :=
  match x.1.req with
  | .get k' => k' = k → x.2 = .value value flags id ∨ x.2 = .none
  | .delete k' => k' = k → x.2 = .none
  | .store L _ => L.key = k → L.cmd = .set → x.2 ≠ .noMemory
  | .block _ => ∀ A, owed x.1.conn = some A → A.line.key = k → x.2 ≠ .stored .STORED

namespace Ideal

variable {cls : List UInt8 → ℕ} {I I' : Ideal} {x : Action × Answer} {xs : List (Action × Answer)}
    {k : List UInt8}
  {e : Entry}

/-- No entry has a later id than the last one that was given out. -/
def Numbered (I : Ideal) : Prop := ∀ k e, I.entries k = some e → e.id.toNat ≤ I.ids.toNat

theorem numbered_empty : Ideal.empty.Numbered := fun _ _ he => by cases he

theorem toNat_next {ids : UInt64} (h : ids.toNat + 1 < 2 ^ 64) : (ids + 1).toNat = ids.toNat + 1 := by
  rw [UInt64.toNat_add]
  exact Nat.mod_eq_of_lt h

/-- The id of an entry that was just stored. -/
theorem id_of_stored {A : Awaited} {bytes : List UInt8} {id : UInt64} {old : Option Entry}
    (h : stored A bytes id old = some e) : e.id = id := by
  unfold stored at h
  split_ifs at h
  · obtain ⟨-, -, rfl⟩ := Option.map_eq_some_iff.mp h
    rfl
  · cases h
    rfl

theorem id_of_outcome {A : Awaited} {bytes : List UInt8} {id : UInt64} {old : Option Entry}
    (h : outcome A bytes id old = some e) : old = some e ∧ verdict A old ≠ .STORED ∨
      e.id = id ∧ verdict A old = .STORED := by
  unfold outcome at h
  split_ifs at h with hstat
  · exact .inr ⟨id_of_stored h, hstat⟩
  · exact .inl ⟨h, hstat⟩

/-- The ids do not go back, and an entry that a step leaves was there before or has the
next id. -/
theorem Step.ids (h : Step cls I x I') : (I'.ids = I.ids ∨ I'.ids = I.ids + 1) ∧
    ∀ k e, I'.entries k = some e → I.entries k = some e ∨ e.id = I.ids + 1 ∧ I'.ids = I.ids + 1 := by
  cases h with
  | ignored | badFormat | hit | waiting | full => exact ⟨.inl rfl, fun _ _ he => .inl he⟩
  | miss k' _ _ _ _ hm | delete k' _ _ hm => exact ⟨.inl rfl, fun _ _ he => .inl (hm.cleared he).2⟩
  | noMemory L hcmd hreq hfree hm =>
    refine ⟨.inl rfl, fun k e he => ?_⟩
    split_ifs at hm
    · exact .inl (hm.cleared he).2
    · exact .inl (hm ▸ he)
  | @block a A bytes hreq hA hlen m hm ids hids =>
    refine ⟨?_, fun k e he => ?_⟩
    · show ids = _ ∨ ids = _
      rw [hids]
      split_ifs
      · exact .inr rfl
      · exact .inl rfl
    · have he : m k = some e := he
      by_cases hk : k = A.line.key
      · subst hk
        rcases id_of_outcome (hm.self.symm.trans he) with ⟨hold, -⟩ | ⟨hid, hstat⟩
        · exact .inl (mem_lookup.mp hold).1
        · exact .inr ⟨hid, hids.trans (if_pos ⟨hstat, by rw [he]; rfl⟩)⟩
      · exact .inl (hm.kept hk he)

/-- One step keeps the ids in order. -/
theorem Numbered.step (h : I.Numbered) (hstep : Step cls I x I') (hlt : I.ids.toNat + 1 < 2 ^ 64) :
    I'.Numbered ∧ I.ids.toNat ≤ I'.ids.toNat ∧ I'.ids.toNat ≤ I.ids.toNat + 1 := by
  obtain ⟨hids, hentries⟩ := hstep.ids
  have hnext := toNat_next hlt
  have hle : I.ids.toNat ≤ I'.ids.toNat ∧ I'.ids.toNat ≤ I.ids.toNat + 1 := by
    rcases hids with hids | hids <;> rw [hids] <;> omega
  refine ⟨fun k e he => ?_, hle⟩
  rcases hentries k e he with hold | ⟨hid, hids'⟩
  · exact (h k e hold).trans hle.1
  · rw [hid, hids']

theorem numbered_of_path (hpath : Path (Step cls) I xs I') (h : I.Numbered)
    (hlt : I.ids.toNat + xs.length < 2 ^ 64) :
    I'.Numbered ∧ I.ids.toNat ≤ I'.ids.toNat ∧ I'.ids.toNat ≤ I.ids.toNat + xs.length := by
  induction hpath with
  | nil => exact ⟨h, le_rfl, le_rfl⟩
  | cons hstep _ ih =>
    rw [List.length_cons] at hlt ⊢
    obtain ⟨hm, hge, hle⟩ := h.step hstep (by omega)
    obtain ⟨hnum, hge', hle'⟩ := ih hm (by omega)
    exact ⟨hnum, by omega, by omega⟩

/-- An entry with an id of before a step was there before it, and the step spares it. -/
theorem Step.spares (h : Step cls I x I') (hlt : I.ids.toNat + 1 < 2 ^ 64) (hk : k.length ≤ KEY_MAX_LENGTH)
    (hold : e.id.toNat ≤ I.ids.toNat) (he : I'.entries k = some e) :
    I.entries k = some e ∧ Spares I.awaited k e.value e.flags e.id x := by
  have hnext := toNat_next hlt
  have hbefore : I.entries k = some e := by
    rcases h.ids.2 k e he with hsame | ⟨hid, -⟩
    · exact hsame
    · rw [hid, hnext] at hold
      omega
  refine ⟨hbefore, ?_⟩
  unfold Spares
  cases h with
  | ignored =>
    split
    · exact fun _ => .inr rfl
    · exact fun _ => rfl
    · simp
    · simp
  | badFormat k' hreq hfree hlong =>
    simp only [hreq]
    rintro rfl
    omega
  | hit k' hreq hfree hshort e' he' =>
    simp only [hreq]
    rintro rfl
    cases hbefore.symm.trans (mem_lookup.mp he').1
    exact .inl rfl
  | miss k' hreq hfree hshort he' hm =>
    simp only [hreq]
    exact fun hk => absurd hk.symm (hm.cleared he).1
  | delete k' hreq hfree hm =>
    simp only [hreq]
    exact fun hk => absurd hk.symm (hm.cleared he).1
  | waiting L hcmd hreq =>
    simp [hreq]
  | noMemory L hcmd hreq hfree hm =>
    simp only [hreq]
    intro hk hset
    rw [if_pos hset] at hm
    exact absurd hk.symm (hm.cleared he).1
  | block A bytes hreq hA hlen hm hids =>
    simp only [hreq]
    rintro A' hA' rfl hstat
    cases hA.symm.trans hA'
    rcases id_of_outcome (hm.self.symm.trans he) with ⟨-, hne⟩ | ⟨hid, -⟩
    · exact hne (Answer.stored.inj hstat)
    · rw [hid, hnext] at hold
      omega
  | full A bytes hreq hA hlen hcmd e' he' =>
    simp [hreq]

/-- An entry with an id of before a path was there all the way. -/
theorem spared_of_path (hpath : Path (Step cls) I xs I') (hnum : I.Numbered)
    (hlt : I.ids.toNat + xs.length < 2 ^ 64)
    (hk : k.length ≤ KEY_MAX_LENGTH) (hold : e.id.toNat ≤ I.ids.toNat) (he : I'.entries k = some e) :
    I.entries k = some e ∧ ∀ ys x zs, xs = ys ++ x :: zs →
      ∃ J, Path (Step cls) I ys J ∧ Spares J.awaited k e.value e.flags e.id x := by
  induction hpath with
  | nil => exact ⟨he, fun ys x zs hxs => by simp at hxs⟩
  | @cons I m I' y xs hstep hrest ih =>
    rw [List.length_cons] at hlt
    obtain ⟨hm, hge, hle⟩ := hnum.step hstep (by omega)
    obtain ⟨hsame, hspares⟩ := ih hm (by omega) (by omega) he
    obtain ⟨hbefore, hfirst⟩ := hstep.spares (by omega) hk hold hsame
    refine ⟨hbefore, fun ys x zs hxs => ?_⟩
    rcases List.append_eq_cons_iff.mp hxs.symm with ⟨rfl, hcons⟩ | ⟨ys', rfl, hcons⟩
    · cases hcons
      exact ⟨I, .nil I, hfirst⟩
    · obtain ⟨J, hpath, hx⟩ := hspares ys' x zs hcons
      exact ⟨J, .cons hstep hpath, hx⟩

/-- A value is read off an entry. -/
theorem Step.of_value {a : Action} {v : List UInt8} {flags : UInt8} {id : UInt64}
    (h : Step cls I (a, .value v flags id) I') :
    ∃ k e, a.req = .get k ∧ k.length ≤ KEY_MAX_LENGTH ∧ I.entries k = some e ∧ e.value = v ∧ e.flags = flags ∧
      e.id = id ∧ I = I' := by
  generalize hx : (a, Answer.value v flags id) = x at h
  cases h with
  | hit k hreq hfree hk e he =>
    cases hx
    exact ⟨k, e, hreq, hk, (mem_lookup.mp he).1, rfl, rfl, rfl, rfl⟩
  | ignored | badFormat | miss | waiting | noMemory | block | full => cases hx
  | delete =>
    split_ifs at hx <;> cases hx

/-- A block that `cas` has stored was compared with an entry. -/
theorem Step.of_swap {b : Action} {A : Awaited} (h : Step cls I (b, .stored .STORED) I')
    (hA : I.awaited b.conn = some A)
    (hcas : A.line.cmd = .cas) : ∃ e, I.entries A.line.key = some e ∧ e.id = A.line.casId := by
  generalize hx : (b, Answer.stored .STORED) = x at h
  cases h with
  | ignored | badFormat | miss | waiting | noMemory | hit | full => cases hx
  | delete =>
    split_ifs at hx <;> cases hx
  | block A' bytes hreq hA' =>
    obtain ⟨rfl, hstat⟩ := Prod.mk.inj hx
    have hstat := (Answer.stored.inj hstat).symm
    cases hA.symm.trans hA'
    cases hold : I.lookup b.now A.line.key with
    | none => simp [verdict, hcas, hold] at hstat
    | some e =>
      refine ⟨e, (mem_lookup.mp hold).1, ?_⟩
      by_contra hne
      simp [verdict, hcas, hold, Ne.symm hne] at hstat

end Ideal

namespace Service

variable {st : Service} {xs pre mid post : List (Action × Answer)} {a b : Action} {v k : List UInt8}
  {flags : UInt8} {id : UInt64}

/-- In every talk of any number of clients with a fresh server: when `get` has read a
value and a `cas` with its id is stored later, then the journal has that value when the
`cas` is carried out, and nothing in between has rebound the key, or read anything else
from it. -/
theorem swap_atomic {limit : ℕ} {set : Settings} {mallocOk : ℕ → Bool} {hashpower : ℕ} {s₀ : Cache}
    (hinit : Cache.init limit set mallocOk hashpower = some s₀) (htalk : Path Talk (start s₀) xs st)
    (hlen : xs.length < 2 ^ 64)
    (hxs : xs = pre ++ (a, .value v flags id) :: (mid ++ (b, .stored .STORED) :: post))
    (hreq : a.req = .get k) {A : Awaited}
    (hA : ((pre ++ (a, .value v flags id) :: mid).foldl Journal.note .empty).owed b.conn = some A)
    (hcas : A.line.cmd = .cas) (hkey : A.line.key = k) (hid : A.line.casId = id) :
    (∃ t, ((pre ++ (a, .value v flags id) :: mid).foldl Journal.note .empty).told k = some t ∧
        t.value = v ∧ t.flags = flags) ∧
      ∀ mid₁ x mid₂, mid = mid₁ ++ x :: mid₂ →
        Spares ((pre ++ (a, .value v flags id) :: mid₁).foldl Journal.note .empty).owed k v flags id x := by
  subst hxs
  obtain ⟨I, hpre, hrest⟩ := Path.append_iff.mp (talk_refines hinit htalk)
  cases hrest with
  | cons hread hrest =>
    obtain ⟨J, hmid, hlast⟩ := Path.append_iff.mp hrest
    obtain ⟨k', e, hreq', hk, he, rfl, rfl, rfl, rfl⟩ := hread.of_value
    cases hreq.symm.trans hreq'
    cases hlast with
    | cons hswap _ =>
      have hbounds := Journal.bounds_of_path (hpre.append (.cons hread hmid)) Journal.bounds_empty
      obtain ⟨e', he', hid'⟩ := hswap.of_swap (hbounds.owed ▸ hA) hcas
      rw [hkey] at he'
      -- the ids up to here have not run out
      simp only [List.length_append, List.length_cons] at hlen
      have hzero : Ideal.empty.ids.toNat = 0 := rfl
      obtain ⟨hnum, -, hle⟩ := Ideal.numbered_of_path hpre Ideal.numbered_empty (by omega)
      have hold : e'.id.toNat ≤ I.ids.toNat := by
        rw [hid', hid]
        exact hnum k e he
      obtain ⟨hbefore, hspares⟩ := Ideal.spared_of_path hmid hnum (by omega) hk hold he'
      cases he.symm.trans hbefore
      refine ⟨⟨_, hbounds.told k e he', rfl, rfl⟩, fun mid₁ x mid₂ hx => ?_⟩
      obtain ⟨K, hpath, hspare⟩ := hspares mid₁ x mid₂ hx
      have howed := (Journal.bounds_of_path (hpre.append (.cons hread hpath)) Journal.bounds_empty).owed
      rw [howed]
      exact hspare

/-- A key is set and read, and a `cas` with the id that was read is sent on another
connection while the key is read once more. -/
def readThenSwap : List Action :=
  storing 1 0 (shortLine .set 97 0 0 0) set_ne_error ++ [⟨1, 0, .get [97]⟩,
    ⟨1, 1, .store (shortLine .cas 97 0 0 1) cas_ne_error⟩, ⟨1, 0, .get [97]⟩, ⟨1, 1, .block [121, 13, 10]⟩]

def swapAnswers : List Answer :=
  [.waiting, .stored .STORED, .value [120, 13, 10] 9 1, .waiting, .value [120, 13, 10] 9 1, .stored .STORED]

/-- The answers of a run. -/
def answersOf (st : Service) : List Action → List Answer
  | [] => []
  | a :: as =>
    match st.step a with
    | .ok st' => st'.answer :: answersOf st' as
    | .error _ => []

theorem talk_answersOf {as : List Action} {st' : Service} (hrun : run step st as = .ok st') :
    Path Talk st (as.zip (answersOf st as)) st' := by
  induction as generalizing st with
  | nil =>
    cases hrun
    exact .nil _
  | cons a as ih =>
    obtain ⟨st₁, hstep, hrest⟩ := (run_cons_eq_ok step).mp hrun
    unfold answersOf
    rw [hstep]
    exact .cons ⟨hstep, rfl⟩ (ih hrest)

theorem swap_atomic_readThenSwap : ∃ s₀ st, Cache.init 1 smallSettings (fun _ => true) 0 = some s₀ ∧
    Path Talk (start s₀) (readThenSwap.zip swapAnswers) st ∧
    ∃ t, (((readThenSwap.zip swapAnswers).take 5).foldl Journal.note .empty).told [97] = some t ∧
      t.value = [120, 13, 10] ∧ t.flags = 9 := by
  have htrial : (Cache.init 1 smallSettings (fun _ => true) 0).any (fun s =>
      (run step (start s) readThenSwap).toOption.isSome &&
      decide (answersOf (start s) readThenSwap = swapAnswers)) = true := by decide +kernel
  obtain ⟨s₀, hinit, hs⟩ := exists_init htrial
  obtain ⟨hends, hanswers⟩ := (Bool.and_eq_true_iff ..).mp hs
  obtain ⟨st, hst⟩ := Option.isSome_iff_exists.mp hends
  have htalk := talk_answersOf (Result.eq_ok_of_toOption hst)
  rw [of_decide_eq_true hanswers] at htalk
  have hcut : readThenSwap.zip swapAnswers = (readThenSwap.zip swapAnswers).take 2 ++
      (⟨1, 0, .get [97]⟩, .value [120, 13, 10] 9 1) :: (((readThenSwap.zip swapAnswers).drop 3).take 2 ++
        (⟨1, 1, .block [121, 13, 10]⟩, .stored .STORED) :: []) := rfl
  have hlate := swap_atomic hinit htalk (by decide) hcut rfl
    (show _ = some (⟨shortLine .cas 97 0 0 1, realtime 0 1⟩ : Awaited) from rfl) rfl rfl rfl
  exact ⟨s₀, st, hinit, htalk, hlate.1⟩

end Service

end MiniMemcached
