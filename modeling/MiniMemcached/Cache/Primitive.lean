import MiniMemcached.Cache.Operations
import MiniMemcached.Runs.Path

/-! The primitive steps of the cache. Every operation of the cache is a path of
these steps, so that an invariant is proved once for each primitive and then
holds across every operation. -/

namespace MiniMemcached

open Runs

/-- The names of the primitive steps. `quiet` takes or releases locks, `bump` is
`it->cas++`, and `drop` is the moment from which nobody holds an item that was
not linked. -/
inductive Act
  | quiet
  | ref (p : Ptr)
  | unref (p : Ptr)
  | fetch (p : Ptr)
  | unlink (p : Ptr)
  | touch (p : Ptr)
  | refuse
  | grant (it : Ptr) (size id : ℕ)
  | fill (it : Ptr) (flags : UInt8)
  | bump (it : Ptr)
  | link (it : Ptr)
  | drop (it : Ptr)

/-- The item that is not linked yet and that a step writes or gives up. -/
def Act.writes : Act → Option Ptr
  | .fill it _ | .bump it | .link it | .drop it => some it
  | _ => none

def Shape.withoutItem (g : Shape) (it : Ptr) : Shape :=
  { g with inFlight := {p | p ∈ g.inFlight ∧ p ≠ it} }

inductive Prim : Cache × Shape → Act → Cache × Shape → Prop
  | quiet {s : Cache} {g : Shape} (locks : ℕ → Bool) (t : List Event) (hl : Event.links t = [])
      (hf : ∀ p v, Event.fetchSub p v ∉ t) :
      Prim (s, g) .quiet ({ s with itemLocks := locks, trace := t ++ s.trace }, g)
  | ref {s : Cache} {g : Shape} {p : Ptr} (hp : p ∈ s.everLinked) :
      Prim (s, g) (.ref p) (s.fetchAdd p, g)
  | unref {s : Cache} {g : Shape} {p : Ptr} (hp : p ∈ s.everLinked) :
      Prim (s, g) (.unref p) (s.fetchSub p, g)
  | fetch {s : Cache} {g : Shape} {p : Ptr} (hp : p ∈ s.everLinked) :
      Prim (s, g) (.fetch p) (s.setFlag p (s.items.itemFlag p ||| Slab.ITEM_FETCHED), g)
  | unlink {s : Cache} {g : Shape} {p : Ptr} {f : Ptr → Option Ptr} {P : ℕ → Option Ptr} {c : UInt32}
      (hp : p ∈ s.everLinked) (hf : s.items.itemFlag p &&& Slab.ITEM_LINKED ≠ 0)
      (hB : Buckets HashTable.hash { s.items with hNext := f }
        { s.hashtable with primaryHashtable := P, hashitems := c } (g.dropped s p).buckets) :
      Prim (s, g) (.unlink p) (s.unlinked p f P c, g.dropped s p)
  | touch {s : Cache} {g : Shape} {p : Ptr} {Q : Set Ptr} (hp : p ∈ s.everLinked)
      (hsound : Sound (s.touched p) { g with queue := Q }) :
      Prim (s, g) (.touch p) (s.touched p, { g with queue := Q })
  | refuse {s : Cache} {g : Shape} {b : Slab} {t : List Event} (hb : NothingCarved s.slab b)
      (hl : Event.links t = []) (hf : ∀ p v, Event.fetchSub p v ∉ t) :
      Prim (s, g) .refuse ({ s with slab := b, trace := t ++ s.trace }, g)
  | grant {s s' : Cache} {g g' : Shape} {it : Ptr} {size id : ℕ} (hg : s.Grant g s' g' size id it) :
      Prim (s, g) (.grant it size id) (s', g')
  | fill {s : Cache} {g : Shape} {it : Ptr} {flags : UInt8} {m : Items} (hit : it ∈ g.inFlight)
      (hn : m.next = s.items.next) (hp : m.prev = s.items.prev) (hh : m.hNext = s.items.hNext)
      (hr : m.refcount = s.items.refcount) (hc : m.slabsClsid = s.items.slabsClsid)
      (hf : m.itemFlag it = flags) (hd : ∀ p ≠ it, SameAt s.items m p) :
      Prim (s, g) (.fill it flags) ({ s with items := m }, g)
  | bump {s : Cache} {g : Shape} {it : Ptr} (hit : it ∈ g.inFlight) :
      Prim (s, g) (.bump it) (s.incCas it, g)
  | link {s : Cache} {g : Shape} {it : Ptr} {Q : Set Ptr} (hit : it ∈ g.inFlight)
      (hkey : ∀ p ∈ g.table, s.items.key p ≠ s.items.key it)
      (hf : s.items.itemFlag it &&& (Slab.ITEM_LINKED ||| Slab.ITEM_SLABBED) = 0)
      (hsound : Sound (s.linked it (HashTable.hash (s.items.key it))) (g.inserted s it Q)) :
      Prim (s, g) (.link it) (s.linked it (HashTable.hash (s.items.key it)), g.inserted s it Q)
  | drop {s : Cache} {g : Shape} (it : Ptr) : Prim (s, g) (.drop it) (s, g.withoutItem it)

theorem Sound.withoutItem {s : Cache} {g : Shape} (h : Sound s g) (it : Ptr) :
    Sound s (g.withoutItem it) :=
  ⟨h.slab, h.buckets, h.clsid, h.linked, h.unslabbed, fun p hp => h.used p (hp.imp_right And.left),
    fun p hp => h.unlinked p hp.1, h.queue,
    h.lru.congr (fun _ _ => rfl) (fun _ _ => rfl) fun p hp hpQ => h.lru.outside p
      (hp.imp_right (Or.imp_left And.left)) hpQ,
    h.numbered, h.once, h.stamped, h.casId⟩

namespace Prim

variable {x y : Cache × Shape} {a : Act}

theorem sound (hp : Prim x a y) (h : Sound x.1 x.2) : Sound y.1 y.2 := by
  cases hp with
  | quiet locks t hl hf =>
    exact h.congr rfl rfl rfl rfl rfl (by simp [Cache.links, Event.links_append, hl])
  | ref hp => exact h.fetchAdd hp
  | unref hp => exact h.fetchSub hp
  | fetch hp => exact h.setFetched
  | unlink hp hf hB => exact h.unlink hp hB
  | touch hp hsound => exact hsound
  | refuse hb hl hf => exact h.refused hb hl
  | grant hg => exact (h.grant hg).1
  | fill hit hn hp hh hr hc hf hd =>
    exact h.fill hit hn hp hh hr hc fun p hpi =>
      ⟨(hd p hpi).data, (hd p hpi).nkey, (hd p hpi).cas, (hd p hpi).itemFlag⟩
  | bump hit =>
    exact h.fill hit rfl rfl rfl rfl rfl fun p hp =>
      ⟨rfl, rfl, by simp [Items.setCas, hp], rfl⟩
  | link hit hkey hf hsound => exact hsound
  | drop it => exact h.withoutItem it

/-- The items in flight that a step does not name stay in flight. -/
theorem inFlight (hp : Prim x a y) {p : Ptr} (h : p ∈ x.2.inFlight) (hw : a.writes ≠ some p) :
    p ∈ y.2.inFlight := by
  cases hp with
  | grant hg => rw [hg.inFlight]; exact .inr h
  | link hit hkey hf hsound => exact ⟨h, fun e => hw (e ▸ rfl)⟩
  | drop it => exact ⟨h, fun e => hw (e ▸ rfl)⟩
  | _ => exact h

theorem evolves (hp : Prim x a y) (h : Sound x.1 x.2) :
    Evolves x.1 x.2 y.1 y.2 {p | p ∈ x.2.inFlight ∧ a.writes ≠ some p} := by
  cases hp with
  | quiet locks t hl hf =>
    exact .rewire ⟨t, rfl⟩ (.refl _) (fun _ hp => hp) (fun _ _ => rfl) (fun _ _ => rfl) rfl rfl rfl rfl
  | @ref s g p hp =>
    have hne : ∀ q ∈ g.inFlight, q ≠ p := fun q hq e => h.unlinked q hq (e ▸ hp)
    exact .rewire ⟨[], rfl⟩ ⟨rfl, rfl, rfl, rfl, rfl, rfl⟩ (fun _ hp => hp) (fun _ _ => rfl)
      (fun q hq => by simp [Cache.fetchAdd, Items.setRefcount, hne q hq.1]) rfl rfl rfl rfl
  | @unref s g p hp =>
    have hne : ∀ q ∈ g.inFlight, q ≠ p := fun q hq e => h.unlinked q hq (e ▸ hp)
    exact .rewire ⟨[_], rfl⟩ ⟨rfl, rfl, rfl, rfl, rfl, rfl⟩ (fun _ hp => hp) (fun _ _ => rfl)
      (fun q hq => by simp [Cache.fetchSub, Cache.emit, Items.setRefcount, hne q hq.1]) rfl rfl rfl rfl
  | @fetch s g p hp =>
    have hne : ∀ q ∈ g.inFlight, q ≠ p := fun q hq e => h.unlinked q hq (e ▸ hp)
    exact .rewire ⟨[], rfl⟩ ⟨rfl, rfl, rfl, rfl, rfl, rfl⟩ (fun _ hp => hp)
      (fun q hq => by simp [Cache.setFlag, Items.setFlag, hne q hq.1]) (fun _ _ => rfl) rfl rfl rfl rfl
  | unlink hp hf hB => exact (h.evolves_unlink hp).mono fun _ hq => hq.1
  | touch hp hsound => exact Sound.evolves_touch _ _
  | refuse hb hl hf => exact Sound.evolves_refused _ hb _
  | grant hg => exact (h.grant hg).2.2.2.mono fun _ hq => hq.1
  | @fill s g it flags m hit hn hp hh hr hc hf hd =>
    have hne : ∀ q, q ∈ s.everLinked ∨
        q ∈ {q | q ∈ g.inFlight ∧ (Act.fill it flags).writes ≠ some q} →
        q ≠ it := by
      rintro q (hq | hq) rfl
      · exact h.unlinked q hit hq
      · exact hq.2 rfl
    exact ⟨⟨[], rfl⟩, fun _ hq => .inl hq, fun q hq => (hd q (hne q hq)).data,
      fun q hq => (hd q (hne q hq)).nkey, fun q hq => (hd q (hne q hq)).nbytes,
      fun q hq => (hd q (hne q hq)).exptime, fun q hq => (hd q (hne q hq)).cas,
      fun q hq => (hd q (hne q (.inr hq))).itemFlag, fun q hq => (hd q (hne q (.inr hq))).refcount,
      .refl _, rfl, rfl, rfl⟩
  | @bump s g it hit =>
    have hne : ∀ q, q ∈ s.everLinked ∨ q ∈ {q | q ∈ g.inFlight ∧ (Act.bump it).writes ≠ some q} →
        q ≠ it := by
      rintro q (hq | hq) rfl
      · exact h.unlinked q hit hq
      · exact hq.2 rfl
    exact { Evolves.refl s g _ with
      cas := fun q hq => by simp [Cache.incCas, Items.setCas, hne q hq] }
  | link hit hkey hf hsound =>
    exact (h.evolves_link hit _ _).mono fun q hq => ⟨hq.1, fun e => hq.2 (e ▸ rfl)⟩
  | drop it =>
    exact .rewire ⟨[], rfl⟩ (.refl _) (fun _ hp => hp) (fun _ _ => rfl) (fun _ _ => rfl) rfl rfl rfl rfl

end Prim

/-- An item has the same key, value and deadline in both memories, and is shown with the
same flags. -/
structure Kept (m m' : Items) (p : Ptr) : Prop where
  data : m'.data p = m.data p
  nkey : m'.nkey p = m.nkey p
  nbytes : m'.nbytes p = m.nbytes p
  exptime : m'.exptime p = m.exptime p
  shown : m'.shown p = m.shown p

theorem Kept.key {m m' : Items} {p : Ptr} (h : Kept m m' p) : m'.key p = m.key p :=
  Items.key_congr h.data h.nkey

/-- Nothing but `fill` writes the flags that are shown of an item that is linked or in flight. -/
theorem Prim.shown {x y : Cache × Shape} {a : Act} (hp : Prim x a y) (h : Sound x.1 x.2) {p : Ptr}
    (hin : p ∈ x.1.everLinked ∨ p ∈ x.2.inFlight) (hfill : ∀ f, a ≠ .fill p f) :
    y.1.items.shown p = x.1.items.shown p := by
  cases hp with
  | @unlink s g q f P c hq hf hB =>
    by_cases hqp : p = q
    · subst hqp
      simp [Items.shown, Cache.unlinked]
    · simp [Items.shown, Cache.unlinked, hqp]
  | @fetch s g q hq =>
    by_cases hqp : p = q
    · subst hqp
      simp [Items.shown, Cache.setFlag, Items.setFlag]
    · simp [Items.shown, Cache.setFlag, Items.setFlag, hqp]
  | @link s g it Q hit hkey hf hsound =>
    by_cases hqp : p = it
    · subst hqp
      simp [Items.shown, Cache.linked]
    · simp [Items.shown, Cache.linked, hqp]
  | @touch s g q Q hq hsound =>
    obtain ⟨nx, pv, hitems⟩ := s.touched_form q
    simp [Items.shown, hitems]
  | @grant s s' g g' it size id hg =>
    obtain ⟨⟨j, hj⟩, hfree⟩ := h.used p hin
    exact congrArg shownFlags (hg.alloc.used j p hj (hfree j)).1.itemFlag
  | @fill s g it flags m hit hn hpv hhn hr hc hf hd =>
    have hne : p ≠ it := fun e => hfill flags (e ▸ rfl)
    exact congrArg shownFlags (hd p hne).itemFlag
  | _ => rfl

/-- Nothing but `fill` writes the key, the value or the deadline of an item that is
linked or in flight, and nothing but `drop` loses sight of it. -/
theorem Prim.kept {x y : Cache × Shape} {a : Act} (hp : Prim x a y) (h : Sound x.1 x.2) {p : Ptr}
    (hin : p ∈ x.1.everLinked ∨ p ∈ x.2.inFlight) (hfill : ∀ f, a ≠ .fill p f) (hdrop : a ≠ .drop p) :
    Kept x.1.items y.1.items p ∧ (p ∈ y.1.everLinked ∨ p ∈ y.2.inFlight) := by
  have hev := hp.evolves h
  have hshown := hp.shown h hin hfill
  by_cases hw : a.writes = some p
  · cases hp with
    | bump hit => exact ⟨⟨rfl, rfl, rfl, rfl, rfl⟩, hin⟩
    | @link s g it Q hit hkey hf hsound =>
      cases hw
      refine ⟨⟨rfl, rfl, rfl, rfl, hshown⟩, .inl ⟨s.casId + 1, List.mem_cons_self ..⟩⟩
    | fill => cases hw; exact absurd rfl (hfill _)
    | drop it => cases hw; exact absurd rfl hdrop
    | _ => cases hw
  · have hin' : p ∈ x.1.everLinked ∨ p ∈ {p | p ∈ x.2.inFlight ∧ a.writes ≠ some p} :=
      hin.imp_right fun hp => ⟨hp, hw⟩
    exact ⟨⟨hev.data p hin', hev.nkey p hin', hev.nbytes p hin', hev.exptime p hin', hshown⟩,
      hin.imp (fun hpE => Cache.everLinked_mono hev.trace hpE) fun hpA => hp.inFlight hpA hw⟩

/-- Only `link` adds to the items that were ever linked. -/
theorem Prim.everLinked {x y : Cache × Shape} {a : Act} (hp : Prim x a y) :
    ∀ p, p ∈ y.1.everLinked ↔ a = .link p ∨ p ∈ x.1.everLinked := by
  intro p
  cases hp with
  | quiet locks t hl hf => simp [Cache.everLinked, Cache.links, Event.links_append, hl]
  | refuse hb hl hf => simp [Cache.everLinked, Cache.links, Event.links_append, hl]
  | grant hg => simp [Cache.everLinked, hg.links]
  | @link s g it Q hit hkey hf hsound =>
    have hlinks : (s.linked it (HashTable.hash (s.items.key it))).links = (it, s.casId + 1) :: s.links :=
      rfl
    simp only [Cache.everLinked, hlinks, Set.mem_ofPred_eq, List.mem_cons, Prod.mk.injEq, Act.link.injEq]
    constructor
    · rintro ⟨id, ⟨rfl, -⟩ | hid⟩
      · exact .inl rfl
      · exact .inr ⟨id, hid⟩
    · rintro (rfl | ⟨id, hid⟩)
      · exact ⟨_, .inl ⟨rfl, rfl⟩⟩
      · exact ⟨id, .inr hid⟩
  | _ => exact ⟨.inr, fun h => h.resolve_left (by simp)⟩

/-- What a step does to the items in flight. -/
def Act.flight (A : Set Ptr) : Act → Set Ptr
  | .grant it _ _ => insert it A
  | .link it | .drop it => {p | p ∈ A ∧ p ≠ it}
  | _ => A

theorem Prim.flight {x y : Cache × Shape} {a : Act} (hp : Prim x a y) :
    y.2.inFlight = a.flight x.2.inFlight := by
  cases hp with
  | grant hg => exact hg.inFlight
  | _ => rfl

/-- What a step adds to the items that were linked, the last one first. -/
def Act.linking (l : List Ptr) : Act → List Ptr
  | .link p => p :: l
  | _ => l

theorem Prim.linking {x y : Cache × Shape} {a : Act} (hp : Prim x a y) :
    y.1.links.map Prod.fst = a.linking (x.1.links.map Prod.fst) := by
  cases hp with
  | quiet locks t hl hf => simp [Cache.links, Event.links_append, hl, Act.linking]
  | refuse hb hl hf => simp [Cache.links, Event.links_append, hl, Act.linking]
  | grant hg => rw [hg.links]; rfl
  | _ => rfl

/-- What a step adds to the counter of an item. -/
def Act.gain (p : Ptr) : Act → UInt32
  | .ref q => if q = p then 1 else 0
  | .unref q | .unlink q => if q = p then -1 else 0
  | _ => 0

/-- What a path adds to the counter of an item. -/
def Act.gains (p : Ptr) : List Act → UInt32
  | [] => 0
  | a :: acts => a.gain p + gains p acts

theorem Act.gains_append (p : Ptr) (as bs : List Act) :
    Act.gains p (as ++ bs) = Act.gains p as + Act.gains p bs := by
  induction as with
  | nil => exact (UInt32.zero_add _).symm
  | cons a as ih =>
    show a.gain p + Act.gains p (as ++ bs) = a.gain p + Act.gains p as + Act.gains p bs
    rw [ih, UInt32.add_assoc]

theorem Prim.refcount {x y : Cache × Shape} {a : Act} (hp : Prim x a y) (h : Sound x.1 x.2) {p : Ptr}
    (hpE : p ∈ x.1.everLinked) : y.1.items.refcount p = x.1.items.refcount p + a.gain p := by
  have hfly : ∀ q ∈ x.2.inFlight, q ≠ p := fun q hq e => h.unlinked q hq (e ▸ hpE)
  have hminus : ∀ n : UInt32, n - 1 = n + -1 := fun n => UInt32.sub_eq_add_neg n 1
  cases hp with
  | @ref s g q hq =>
    by_cases hqp : q = p
    · subst hqp
      simp [Cache.fetchAdd, Items.setRefcount, Act.gain]
    · have hne : p ≠ q := fun e => hqp e.symm
      simp [Cache.fetchAdd, Items.setRefcount, Act.gain, hqp, hne]
  | @unref s g q hq =>
    by_cases hqp : q = p
    · subst hqp
      simp [Cache.fetchSub, Cache.emit, Items.setRefcount, Act.gain, hminus]
    · have hne : p ≠ q := fun e => hqp e.symm
      simp [Cache.fetchSub, Cache.emit, Items.setRefcount, Act.gain, hqp, hne]
  | @unlink s g q f P c hq hf hB =>
    by_cases hqp : q = p
    · subst hqp
      simp [Cache.unlinked, Act.gain, hminus]
    · have hne : p ≠ q := fun e => hqp e.symm
      simp [Cache.unlinked, Act.gain, hqp, hne]
  | @touch s g q Q hq hsound =>
    obtain ⟨nx, pv, hitems⟩ := s.touched_form q
    simp [hitems, Act.gain]
  | @grant s s' g g' it size id hg =>
    obtain ⟨⟨j, hj⟩, hfree⟩ := h.used p (.inl hpE)
    simpa [Act.gain] using (hg.alloc.used j p hj (hfree j)).1.refcount
  | @fill s g it flags m hit hn hpv hhn hr hc hf hd => simp [Act.gain, hr]
  | @link s g it Q hit hkey hf hsound =>
    have hne : p ≠ it := fun e => hfly it hit e.symm
    simp [Cache.linked, Act.gain, hne]
  | _ => simp [Act.gain, Cache.setFlag, Items.setFlag, Cache.incCas, Items.setCas]

/-- A path of primitive steps. -/
abbrev Steps (s : Cache) (g : Shape) (acts : List Act) (s' : Cache) (g' : Shape) : Prop :=
  Path Prim (s, g) acts (s', g')

namespace Steps

variable {s s' : Cache} {g g' : Shape} {acts : List Act}

theorem sound (hp : Steps s g acts s' g') (h : Sound s g) : Sound s' g' :=
  Path.invariant (I := fun x => Sound x.1 x.2) (C := fun _ => True) (fun _ _ _ hs _ hp => hp.sound hs)
    hp (fun _ _ => trivial) h

theorem flight (hp : Steps s g acts s' g') : g'.inFlight = acts.foldl Act.flight g.inFlight :=
  Path.foldl (o := fun x : Cache × Shape => x.2.inFlight) (fun _ _ _ hp => Prim.flight hp) hp

theorem linking (hp : Steps s g acts s' g') :
    s'.links.map Prod.fst = acts.foldl Act.linking (s.links.map Prod.fst) :=
  Path.foldl (o := fun x : Cache × Shape => x.1.links.map Prod.fst) (fun _ _ _ hp => Prim.linking hp) hp

/-- Nothing is linked on the way. -/
theorem links_of_unlinking (hp : Steps s g acts s' g') (h : Sound s g)
    (hno : ∀ l, acts.foldl Act.linking l = l) : s'.casId = s.casId := by
  have hlen := congrArg List.length (hp.linking.trans (hno _))
  simp only [List.length_map] at hlen
  rw [(hp.sound h).casId, h.casId, hlen]

/-- The only item that is linked on the way gets the next id. -/
theorem cas_of_linking (hp : Steps s g acts s' g') (h : Sound s g) {p q : Ptr} (hp' : p ∉ s.everLinked)
    (hin : p ∈ s'.everLinked) (hone : ∀ l, acts.foldl Act.linking l = q :: l) :
    s'.items.cas p = s.casId + 1 ∧ s'.casId = s.casId + 1 := by
  have hs' := hp.sound h
  have hlinks := hp.linking.trans (hone _)
  cases hl : s'.links with
  | nil => rw [hl] at hlinks; cases hlinks
  | cons e tail =>
    obtain ⟨p', id⟩ := e
    rw [hl, List.map_cons] at hlinks
    obtain ⟨hpq, htail⟩ := List.cons.inj hlinks
    have hlen := congrArg List.length htail
    simp only [List.length_map] at hlen
    -- the item is at the front, where the number is the length
    obtain ⟨id', hid⟩ := hin
    have hfront : p = p' := by
      rw [hl] at hid
      rcases List.mem_cons.mp hid with e | hmem
      · cases e
        rfl
      · have hmem : p ∈ s.links.map Prod.fst := htail ▸ List.mem_map_of_mem hmem
        obtain ⟨⟨p₀, id₀⟩, hmem₀, rfl⟩ := List.mem_map.mp hmem
        exact absurd ⟨id₀, hmem₀⟩ hp'
    subst hfront
    have hnum := hs'.numbered
    rw [hl] at hnum
    have hcas := hs'.stamped p id (by rw [hl]; exact List.mem_cons_self ..)
    have hsum : UInt64.ofNat (s.links.length + 1) = s.casId + 1 := by
      rw [h.casId, UInt64.ofNat_add]
      rfl
    refine ⟨?_, ?_⟩
    · rw [hcas, hnum.1, hlen, hsum]
    · rw [hs'.casId, hl, List.length_cons, hlen, hsum]

theorem inFlight (hp : Steps s g acts s' g') {p : Ptr} (h : p ∈ g.inFlight)
    (hw : ∀ a ∈ acts, a.writes ≠ some p) : p ∈ g'.inFlight :=
  Path.invariant (I := fun x => p ∈ x.2.inFlight) (C := fun a => a.writes ≠ some p)
    (fun _ _ _ hs hw hp => hp.inFlight hs hw) hp hw h

theorem kept (hp : Steps s g acts s' g') (h : Sound s g) {p : Ptr}
    (hin : p ∈ s.everLinked ∨ p ∈ g.inFlight) (hfill : ∀ f, .fill p f ∉ acts) (hdrop : .drop p ∉ acts) :
    Kept s.items s'.items p := by
  have hne : ∀ a ∈ acts, (∀ f, a ≠ .fill p f) ∧ a ≠ .drop p := fun a ha =>
    ⟨fun f e => hfill f (e ▸ ha), fun e => hdrop (e ▸ ha)⟩
  refine Path.rel (I := fun x => Sound x.1 x.2 ∧ (p ∈ x.1.everLinked ∨ p ∈ x.2.inFlight))
    (C := fun a => (∀ f, a ≠ .fill p f) ∧ a ≠ .drop p) (R := fun x y => Kept x.1.items y.1.items p)
    (fun _ => ⟨rfl, rfl, rfl, rfl, rfl⟩) (fun x y z h₁ h₂ => ?_) (fun x a y hx ha hp => ?_) hp hne
    ⟨h, hin⟩
  · exact ⟨h₂.data.trans h₁.data, h₂.nkey.trans h₁.nkey, h₂.nbytes.trans h₁.nbytes,
      h₂.exptime.trans h₁.exptime, h₂.shown.trans h₁.shown⟩
  · obtain ⟨hk, hin⟩ := hp.kept hx.1 hx.2 ha.1 ha.2
    exact ⟨⟨hp.sound hx.1, hin⟩, hk⟩

theorem evolves (hp : Steps s g acts s' g') (h : Sound s g) {K : Set Ptr} (hK : ∀ p ∈ K, p ∈ g.inFlight)
    (hw : ∀ a ∈ acts, ∀ p ∈ K, a.writes ≠ some p) : Evolves s g s' g' K := by
  refine Path.rel (I := fun x => Sound x.1 x.2 ∧ ∀ p ∈ K, p ∈ x.2.inFlight)
    (C := fun a => ∀ p ∈ K, a.writes ≠ some p) (R := fun x y => Evolves x.1 x.2 y.1 y.2 K)
    (fun x => .refl x.1 x.2 K) (fun x y z h₁ h₂ => ?_) (fun x a y hx ha hp => ?_) hp hw ⟨h, hK⟩
  · exact Evolves.trans h₁ h₂
  · exact ⟨⟨hp.sound hx.1, fun p hpK => hp.inFlight (hx.2 p hpK) (ha p hpK)⟩,
      (hp.evolves hx.1).mono fun p hpK => ⟨hx.2 p hpK, ha p hpK⟩⟩

theorem everLinked_mono (hp : Steps s g acts s' g') (h : Sound s g) :
    s.everLinked ⊆ s'.everLinked :=
  Cache.everLinked_mono (hp.evolves h (K := ∅) (by simp) (by simp)).trace

/-- An item that was ever linked is shown with the same flags for good. -/
theorem shown (hp : Steps s g acts s' g') (h : Sound s g) {p : Ptr} (hpE : p ∈ s.everLinked) :
    s'.items.shown p = s.items.shown p := by
  induction acts generalizing s g with
  | nil =>
    cases hp
    rfl
  | cons a acts ih =>
    cases hp with
    | @cons _ m _ _ _ hstep hrest =>
      have hfill : ∀ f, a ≠ .fill p f := by
        rintro f rfl
        cases hstep with
        | fill hit => exact h.unlinked p hit hpE
      have hm := Steps.everLinked_mono (.single hstep) h hpE
      exact (ih hrest (hstep.sound h) hm).trans (hstep.shown h (.inl hpE) hfill)

theorem kept_linked (hp : Steps s g acts s' g') (h : Sound s g) {p : Ptr} (hpE : p ∈ s.everLinked) :
    Kept s.items s'.items p := by
  have hev := hp.evolves h (K := ∅) (by simp) (by simp)
  exact ⟨hev.data p (.inl hpE), hev.nkey p (.inl hpE), hev.nbytes p (.inl hpE), hev.exptime p (.inl hpE),
    hp.shown h hpE⟩

/-- A linked item is one of the items that were ever linked. -/
theorem everLinked_of_link (hp : Steps s g acts s' g') (h : Sound s g) {p : Ptr}
    (hl : .link p ∈ acts) : p ∈ s'.everLinked := by
  obtain ⟨as, bs, rfl⟩ := List.append_of_mem hl
  obtain ⟨⟨s₁, g₁⟩, hp₁, hp₂⟩ := Path.append_iff.mp hp
  have h₁ := Steps.sound hp₁ h
  cases hp₂ with
  | @cons _ m _ _ _ hlink hrest =>
    have h₂ := hlink.sound h₁
    refine everLinked_mono hrest h₂ ?_
    cases hlink with
    | link hit hkey hf hsound => exact ⟨s₁.casId + 1, List.mem_cons_self ..⟩

/-- Only linked items come into the table. -/
theorem table_of_link (hp : Steps s g acts s' g') {p : Ptr} (h : p ∈ g'.table) :
    p ∈ g.table ∨ .link p ∈ acts := by
  have haux : ∀ {x y : Cache × Shape} {as : List Act}, Path Prim x as y → p ∈ y.2.table →
      p ∈ x.2.table ∨ .link p ∈ as := by
    intro x y as hxy hy
    induction hxy with
    | nil => exact .inl hy
    | cons hab _ ih =>
      rcases ih hy with hp | hp
      · cases hab with
        | unlink hpE hf hB => exact .inl (Shape.table_dropped hp)
        | grant hg => exact .inl (by simpa only [Shape.table, hg.buckets] using hp)
        | link hit hkey hf hsound =>
          rcases Shape.table_inserted.mp hp with rfl | hp
          · exact .inr (List.mem_cons_self ..)
          · exact .inl hp
        | _ => exact .inl hp
      · exact .inr (List.mem_cons_of_mem _ hp)
  exact haux hp h

theorem refcount (hp : Steps s g acts s' g') (h : Sound s g) {p : Ptr} (hpE : p ∈ s.everLinked) :
    s'.items.refcount p = s.items.refcount p + Act.gains p acts := by
  induction acts generalizing s g with
  | nil => cases hp; exact (UInt32.add_zero _).symm
  | cons a acts ih =>
    cases hp with
    | @cons _ m _ _ _ hstep hrest =>
      have hm := Steps.everLinked_mono (.single hstep) h hpE
      show s'.items.refcount p = s.items.refcount p + (a.gain p + Act.gains p acts)
      rw [ih hrest (hstep.sound h) hm, hstep.refcount h hpE, UInt32.add_assoc]

/-- Only `unlink` takes an item out of the table. -/
theorem table_mono (hp : Steps s g acts s' g') (hno : ∀ q, .unlink q ∉ acts) : g.table ⊆ g'.table := by
  induction acts generalizing s g with
  | nil => cases hp; exact subset_rfl
  | cons a acts ih =>
    cases hp with
    | @cons _ m _ _ _ hstep hrest =>
      refine Set.Subset.trans ?_ (ih hrest fun q hq => hno q (List.mem_cons_of_mem _ hq))
      cases hstep with
      | unlink => exact absurd (List.mem_cons_self ..) (hno _)
      | grant hg => simp only [Shape.table, hg.buckets, subset_rfl]
      | link => exact fun q hq => Shape.table_inserted.mpr (.inr hq)
      | _ => exact subset_rfl

/-- A linked item that is not unlinked afterwards is in the table. -/
theorem mem_table_of_link {as bs : List Act} {p : Ptr} (hp : Steps s g (as ++ .link p :: bs) s' g')
    (hno : ∀ q, .unlink q ∉ bs) : p ∈ g'.table := by
  obtain ⟨⟨s₁, g₁⟩, -, hrest⟩ := Path.append_iff.mp hp
  cases hrest with
  | @cons _ m _ _ _ hlink hpost =>
    refine table_mono hpost hno ?_
    cases hlink with
    | link => exact Shape.table_inserted.mpr (.inl rfl)

end Steps

end MiniMemcached
