import MiniMemcached.Service.Refinement

/-! What the clients can rely on. The journal of a talk bounds the entries of the service
from above: a value that is served is the one last stored under its key, and its deadline
is not reached. Where no two keys of the talk share a bucket nothing is forgotten, and
the answers are those that the journal gives. -/

namespace MiniMemcached

open Maps Runs

theorem Ideal.mem_lookup {I : Ideal} {now : UInt32} {k : List UInt8} {e : Entry} :
    e ∈ I.lookup now k ↔ e ∈ I.entries k ∧ ¬Reached e.expires now := by
  unfold Ideal.lookup
  simp [Option.filter_eq_some_iff]

/-- What a `get` is answered. -/
theorem Ideal.Step.of_get {cls : List UInt8 → ℕ} {I I' : Ideal} {a : Action} {r : Answer} {k : List UInt8}
    (h : Ideal.Step cls I (a, r) I') (hreq : a.req = .get k) :
    r = .none ∧ ¬I.Allowed a ∨ r = .badFormat ∧ KEY_MAX_LENGTH < k.length ∨
      (∃ e, I.lookup a.now k = some e ∧ r = .value e.value e.flags e.id) ∨ I.lookup a.now k = none ∧
      r = .miss := by
  cases h with
  | ignored hno => exact .inl ⟨rfl, hno⟩
  | badFormat k' hreq' hfree hk =>
    cases hreq.symm.trans hreq'
    exact .inr (.inl ⟨rfl, hk⟩)
  | hit k' hreq' hfree hk e he =>
    cases hreq.symm.trans hreq'
    exact .inr (.inr (.inl ⟨e, he, rfl⟩))
  | miss k' hreq' hfree hk he =>
    cases hreq.symm.trans hreq'
    exact .inr (.inr (.inr ⟨he, rfl⟩))
  | delete k' hreq' => cases hreq.symm.trans hreq'
  | waiting L hcmd hreq' => cases hreq.symm.trans hreq'
  | noMemory L hcmd hreq' => cases hreq.symm.trans hreq'
  | block A bytes hreq' => cases hreq.symm.trans hreq'
  | full A bytes hreq' => cases hreq.symm.trans hreq'

namespace Journal

variable {cls : List UInt8 → ℕ} {I I' : Ideal} {l : Journal} {a : Action} {r : Answer} {k : List UInt8}

/-- The service shows nothing that the journal does not have. -/
structure Bounds (l : Journal) (I : Ideal) : Prop where
  told : Below Entry.told I.entries l.told
  owed : l.owed = I.awaited

theorem note_none (l : Journal) (a : Action) : l.note (a, .none) = l := by
  unfold note
  cases a.req <;> rfl

theorem note_get (hreq : a.req = .get k) (hr : r ≠ .miss) : l.note (a, r) = l := by
  unfold note
  cases r <;> simp_all

theorem note_miss (hreq : a.req = .get k) :
    l.note (a, .miss) = { l with told := Function.update l.told k none } := by
  unfold note
  simp only [hreq]

theorem note_delete (hreq : a.req = .delete k) (hr : r = .deleted ∨ r = .notFound) :
    l.note (a, r) = { l with told := Function.update l.told k none } := by
  unfold note
  rcases hr with rfl | rfl <;> simp only [hreq]

theorem note_waiting {L : StoreLine} {hcmd : L.cmd ≠ .error} (hreq : a.req = .store L hcmd) :
    l.note (a, .waiting) =
      { l with owed := Function.update l.owed a.conn (some ⟨L, realtime L.exptime a.now⟩) } := by
  unfold note
  simp only [hreq]

theorem note_noMemory {L : StoreLine} {hcmd : L.cmd ≠ .error} (hreq : a.req = .store L hcmd) :
    l.note (a, .noMemory) =
      if L.cmd = .set then { l with told := Function.update l.told L.key none } else l := by
  unfold note
  simp only [hreq]

theorem note_stored {A : Awaited} {bytes : List UInt8} (hreq : a.req = .block bytes)
    (hA : l.owed a.conn = some A) (stat : StoreStat) :
    l.note (a, .stored stat) =
      { told := if stat = .STORED then Function.update l.told A.line.key (l.stored A bytes) else l.told
        owed := Function.update l.owed a.conn none } := by
  unfold note
  simp only [hreq, hA]

/-- What the ideal service stores is what the journal is told. -/
theorem told_of_stored {A : Awaited} {bytes : List UInt8} {id : UInt64} (h : l.Bounds I) {now : UInt32} :
    ∀ e ∈ Ideal.stored A bytes id (I.lookup now A.line.key), e.told ∈ l.stored A bytes := by
  intro e he
  unfold Ideal.stored at he
  unfold stored
  split_ifs at he ⊢ with hcmd hplain
  · obtain ⟨old, hold, rfl⟩ := Option.mem_map.mp he
    have htold := h.told A.line.key old (Ideal.mem_lookup.mp hold).1
    exact Option.mem_map.mpr ⟨old.told, htold, rfl⟩
  · cases he
    rfl
  · cases he

/-- A request and its answer keep the journal right. -/
theorem bounds_step (h : l.Bounds I) (hstep : Ideal.Step cls I (a, r) I') : (l.note (a, r)).Bounds I' := by
  cases hstep with
  | ignored hno =>
    rw [note_none]
    exact h
  | badFormat k hreq hfree hk =>
    rw [note_get (r := .badFormat) hreq nofun]
    exact h
  | hit k hreq hfree hk e he =>
    rw [note_get (r := .value e.value e.flags e.id) hreq nofun]
    exact h
  | miss k hreq hfree hk he hm =>
    rw [note_miss hreq]
    exact ⟨hm.below h.told (by simp), h.owed⟩
  | delete k hreq hfree hm =>
    rw [note_delete hreq (by split_ifs <;> simp)]
    exact ⟨hm.below h.told (by simp), h.owed⟩
  | waiting L hcmd hreq hfree =>
    rw [note_waiting hreq]
    exact ⟨h.told, congrArg (Function.update · a.conn _) h.owed⟩
  | noMemory L hcmd hreq hfree hm =>
    rw [note_noMemory hreq]
    split_ifs at hm ⊢ with hset
    · exact ⟨hm.below h.told (by simp), h.owed⟩
    · exact ⟨hm ▸ h.told, h.owed⟩
  | block A bytes hreq hA hlen hm hids =>
    have howed : l.owed a.conn = some A := by rw [h.owed, hA]
    rw [note_stored hreq howed]
    refine ⟨?_, congrArg (Function.update · a.conn none) h.owed⟩
    unfold Ideal.outcome at hm
    split_ifs at hm ⊢ with hstat
    · exact hm.below h.told (told_of_stored h)
    · exact hm.below_same h.told fun e he => (Ideal.mem_lookup.mp he).1
  | full A bytes hreq hA hlen hcmd e he =>
    have howed : l.owed a.conn = some A := by rw [h.owed, hA]
    rw [note_stored hreq howed]
    exact ⟨h.told, congrArg (Function.update · a.conn none) h.owed⟩

/-- The journal of a talk with the ideal service. -/
theorem bounds_of_path {xs : List (Action × Answer)} (hpath : Path (Ideal.Step cls) I xs I')
    (h : l.Bounds I) : (xs.foldl note l).Bounds I' := by
  induction hpath generalizing l with
  | nil => exact h
  | cons hab _ ih => exact ih (bounds_step h hab)

theorem bounds_empty : empty.Bounds Ideal.empty := ⟨Below.empty _ _, rfl⟩

theorem mem_lookup {t : Told} {now : UInt32} :
    t ∈ l.lookup now k ↔ t ∈ l.told k ∧ ¬Reached t.expires now := by
  unfold lookup
  simp [Option.filter_eq_some_iff]

/-- A value that is served is in the journal. -/
theorem Bounds.value (h : l.Bounds I) {v : List UInt8} {flags : UInt8} {id : UInt64}
    (hstep : Ideal.Step cls I (a, .value v flags id) I') (hreq : a.req = .get k) :
    ∃ t, l.lookup a.now k = some t ∧ t.value = v ∧ t.flags = flags := by
  rcases hstep.of_get hreq with ⟨hr, -⟩ | ⟨hr, -⟩ | ⟨e, he, hr⟩ | ⟨-, hr⟩
  · cases hr
  · cases hr
  · cases hr
    obtain ⟨hmem, hpass⟩ := Ideal.mem_lookup.mp he
    exact ⟨e.told, mem_lookup.mpr ⟨h.told k e hmem, hpass⟩, rfl, rfl⟩
  · cases hr

end Journal

/-! ### Keys in buckets of their own -/

/-- The key that a request names. -/
def Request.names : Request → Option (List UInt8)
  | .store L _ => some L.key
  | .block _ => none
  | .get k | .delete k => some k

/-- No two keys that the requests name share a bucket. -/
def Apart (cls : List UInt8 → ℕ) (keys : Set (List UInt8)) : Prop :=
  ∀ j ∈ keys, ∀ k ∈ keys, cls j = cls k → j = k

/-- The keys that the requests name. -/
def keysOf (as : List Action) : Set (List UInt8) := {k | ∃ a ∈ as, k ∈ a.req.names}

/-- The storage lines that are sent leave `ITEM_LINKED` and `ITEM_SLABBED` alone. -/
def Action.Plain (a : Action) : Prop := ∀ L hcmd, a.req = .store L hcmd → L.Plain

/-- Of an entry that is served later the journal has the same. -/
theorem told_filter (o : Option Entry) (t : UInt32) :
    (o.filter fun e => ¬Reached e.expires t).map Entry.told =
      (o.map Entry.told).filter fun w => ¬Reached w.expires t := by
  cases o with
  | none => rfl
  | some e =>
    by_cases he : Reached e.expires t
    · have hw : Reached e.told.expires t := he
      simp [Option.filter_some, he, hw]
    · have hw : ¬Reached e.told.expires t := he
      simp [Option.filter_some, he, hw]

/-- What is not served now is not served later. -/
theorem filter_lookup (I : Ideal) {now t : UInt32} (hle : now ≤ t) (k : List UInt8) :
    (I.lookup now k).filter (fun e => ¬Reached e.expires t) = I.lookup t k := by
  unfold Ideal.lookup
  cases I.entries k with
  | none => rfl
  | some e =>
    by_cases he : Reached e.expires now
    · have ht : Reached e.expires t := ⟨he.1, UInt32.le_trans he.2 hle⟩
      simp [Option.filter_some, he, ht]
    · simp [Option.filter_some, he]

namespace Journal

variable {cls : List UInt8 → ℕ} {I I' : Ideal} {l : Journal} {a : Action} {r : Answer} {k : List UInt8}
  {keys : Set (List UInt8)} {now : UInt32}

/-- From now on the service shows just what the journal has, and it holds and awaits no
keys but these. -/
structure Exact (keys : Set (List UInt8)) (now : UInt32) (l : Journal) (I : Ideal) : Prop where
  told : ∀ t, now ≤ t → ∀ k, (I.lookup t k).map Entry.told = l.lookup t k
  owed : l.owed = I.awaited
  named : ∀ k, (I.entries k).isSome → k ∈ keys
  lines : ∀ c A, I.awaited c = some A → A.line.key ∈ keys ∧ A.line.Plain

/-- A key that is alone in its bucket is rebound in both. -/
theorem Exact.rebind (h : Exact keys now l I) (hapart : Apart cls keys) (hk : k ∈ keys)
    (hle : now ≤ a.now) {o : Option Entry} {m : List UInt8 → Option Entry} {w : Option Told}
    (hm : Rebinds cls I.entries k o m)
    (ho : ∀ t, a.now ≤ t → (o.map Entry.told).filter (fun w => ¬Reached w.expires t) =
      w.filter fun w => ¬Reached w.expires t) {f g : ℕ → Option Awaited} {n : UInt64} (hfg : f = g)
    (hlines : ∀ c A, g c = some A → A.line.key ∈ keys ∧ A.line.Plain) :
    Exact keys a.now ⟨Function.update l.told k w, f⟩ ⟨m, g, n⟩ := by
  have halone : ∀ j ≠ k, cls j = cls k → I.entries j = none := by
    intro j hj hcls
    by_contra hne
    exact hj (hapart j (h.named j (Option.isSome_iff_ne_none.mpr hne)) k hk hcls)
  obtain rfl := hm.eq_update halone
  refine ⟨fun t ht j => ?_, hfg, fun j hj => ?_, hlines⟩
  · unfold Ideal.lookup lookup
    by_cases hj : j = k
    · subst hj
      simp only [Function.update_self]
      rw [told_filter]
      exact ho t ht
    · simp only [Function.update_of_ne hj]
      exact h.told t (UInt32.le_trans hle ht) j
  · by_cases hjk : j = k
    · exact hjk ▸ hk
    · simp only [Function.update_of_ne hjk] at hj
      exact h.named j hj

theorem Exact.later (h : Exact keys now l I) {t : UInt32} (hle : now ≤ t) : Exact keys t l I :=
  ⟨fun t' ht => h.told t' (UInt32.le_trans hle ht), h.owed, h.named, h.lines⟩

/-- What is stored under a key is the same in both. -/
theorem Exact.stored_eq (h : Exact keys now l I) (hle : now ≤ a.now) {A : Awaited} (hplain : A.line.Plain)
    (bytes : List UInt8) (id : UInt64)
    (hstat : Ideal.verdict A (I.lookup a.now A.line.key) = .STORED) :
    (Ideal.stored A bytes id (I.lookup a.now A.line.key)).map Entry.told = l.stored A bytes := by
  unfold Ideal.stored stored
  split_ifs with hcmd
  · cases hlook : I.lookup a.now A.line.key with
    | none =>
      rw [hlook] at hstat
      unfold Ideal.verdict at hstat
      rcases hcmd with e | e <;> simp [e] at hstat
    | some e =>
      have htold := h.told a.now hle A.line.key
      rw [hlook, Option.map_some] at htold
      rw [(mem_lookup.mp htold.symm).1]
      rfl
  · rfl

/-- A request and its answer keep both the same. -/
theorem exact_step (h : Exact keys now l I) (hapart : Apart cls keys) (hle : now ≤ a.now)
    (hnames : ∀ k ∈ a.req.names, k ∈ keys) (hplain : a.Plain) (hstep : Ideal.Step cls I (a, r) I') :
    Exact keys a.now (l.note (a, r)) I' := by
  have hupdate : ∀ c A, Function.update I.awaited a.conn none c = some A →
      A.line.key ∈ keys ∧ A.line.Plain := by
    intro c A hA
    rw [Function.update_apply] at hA
    split_ifs at hA
    exact h.lines c A hA
  cases hstep with
  | ignored hno =>
    rw [note_none]
    exact h.later hle
  | badFormat k hreq hfree hk =>
    rw [note_get (r := .badFormat) hreq nofun]
    exact h.later hle
  | hit k hreq hfree hk e he =>
    rw [note_get (r := .value e.value e.flags e.id) hreq nofun]
    exact h.later hle
  | miss k hreq hfree hk he hm =>
    rw [note_miss hreq]
    exact h.rebind hapart (hnames k (by simp [hreq, Request.names])) hle hm (fun t ht => rfl) h.owed h.lines
  | delete k hreq hfree hm =>
    rw [note_delete hreq (by split_ifs <;> simp)]
    exact h.rebind hapart (hnames k (by simp [hreq, Request.names])) hle hm (fun t ht => rfl) h.owed h.lines
  | waiting L hcmd hreq hfree =>
    rw [note_waiting hreq]
    refine ⟨(h.later hle).told, congrArg (Function.update · a.conn _) h.owed, h.named, fun c A hA => ?_⟩
    simp only [Function.update_apply] at hA
    split_ifs at hA with hc
    · cases hA
      exact ⟨hnames L.key (by simp [hreq, Request.names]), hplain L hcmd hreq⟩
    · exact h.lines c A hA
  | noMemory L hcmd hreq hfree hm =>
    rw [note_noMemory hreq]
    split_ifs at hm ⊢ with hset
    · exact h.rebind hapart (hnames L.key (by simp [hreq, Request.names])) hle hm (fun t ht => rfl) h.owed
        h.lines
    · subst hm
      exact h.later hle
  | block A bytes hreq hA hlen hm hids =>
    have howed : l.owed a.conn = some A := by rw [h.owed, hA]
    have hfg : Function.update l.owed a.conn none = Function.update I.awaited a.conn none :=
      congrArg (Function.update · a.conn none) h.owed
    obtain ⟨hk, hplainA⟩ := h.lines a.conn A hA
    rw [note_stored hreq howed]
    unfold Ideal.outcome at hm
    split_ifs at hm ⊢ with hstat
    · have hsame := h.stored_eq hle hplainA bytes (I.ids + 1) hstat
      exact h.rebind hapart hk hle hm (fun t ht => by rw [hsame]) hfg hupdate
    · have hkeep : l.told = Function.update l.told A.line.key (l.told A.line.key) :=
        (Function.update_eq_self ..).symm
      rw [hkeep]
      refine h.rebind hapart hk hle hm (fun t ht => ?_) hfg hupdate
      rw [← told_filter, filter_lookup I ht]
      exact h.told t (UInt32.le_trans hle ht) A.line.key
  | full A bytes hreq hA hlen hcmd e he =>
    have howed : l.owed a.conn = some A := by rw [h.owed, hA]
    rw [note_stored hreq howed]
    exact ⟨(h.later hle).told, congrArg (Function.update · a.conn none) h.owed, h.named, hupdate⟩

/-- The journal of a talk whose clock does not go back and whose keys share no bucket. -/
theorem exact_of_path {xs : List (Action × Answer)} (hpath : Path (Ideal.Step cls) I xs I')
    (h : Exact keys now l I) (hapart : Apart cls keys) (hclock : xs.Pairwise fun x y => x.1.now ≤ y.1.now)
    (hfirst : ∀ x ∈ xs, now ≤ x.1.now) (hnames : ∀ x ∈ xs, ∀ k ∈ x.1.req.names, k ∈ keys)
    (hplain : ∀ x ∈ xs, x.1.Plain) {last : UInt32} (hlast : now ≤ last) (hall : ∀ x ∈ xs, x.1.now ≤ last) :
    Exact keys last (xs.foldl note l) I' := by
  induction hpath generalizing l now with
  | nil => exact h.later hlast
  | @cons I m I' x xs hab _ ih =>
    obtain ⟨hhead, htail⟩ := List.pairwise_cons.mp hclock
    have hx : x ∈ x :: xs := List.mem_cons_self ..
    have hm := exact_step h hapart (hfirst x hx) (hnames x hx) (hplain x hx) hab
    exact ih hm htail hhead (fun y hy => hnames y (List.mem_cons_of_mem x hy))
      (fun y hy => hplain y (List.mem_cons_of_mem x hy)) (hall x hx) fun y hy =>
        hall y (List.mem_cons_of_mem x hy)

theorem exact_empty (keys : Set (List UInt8)) (now : UInt32) : Exact keys now empty .empty :=
  ⟨fun _ _ _ => rfl, rfl, fun _ hk => (by cases hk), fun _ _ hA => (by cases hA)⟩

end Journal

namespace Service

variable {st : Service} {xs pre post : List (Action × Answer)} {a : Action} {r : Answer} {k : List UInt8}

/-- In every talk of any number of clients with a fresh server, a value that `get` is
answered is the one that the journal of the talk so far holds for the key, with its flags,
and its deadline is not reached. -/
theorem reads_fresh {limit : ℕ} {set : Settings} {mallocOk : ℕ → Bool} {hashpower : ℕ} {s₀ : Cache}
    (hinit : Cache.init limit set mallocOk hashpower = some s₀) (htalk : Path Talk (start s₀) xs st)
    {v : List UInt8} {flags : UInt8} {id : UInt64} (hxs : xs = pre ++ (a, .value v flags id) :: post)
    (hreq : a.req = .get k) :
    ∃ t, (pre.foldl Journal.note .empty).lookup a.now k = some t ∧ t.value = v ∧ t.flags = flags := by
  subst hxs
  obtain ⟨I, hpre, hrest⟩ := Path.append_iff.mp (talk_refines hinit htalk)
  cases hrest with
  | cons hstep _ => exact (Journal.bounds_of_path hpre Journal.bounds_empty).value hstep hreq

/-- In a talk whose clock does not go back, whose storage lines are plain and whose keys
share no bucket, nothing is forgotten: `get` is answered the value of the journal, and a
miss where it has none, unless its connection owes a block. -/
theorem answers_exact {limit : ℕ} {set : Settings} {mallocOk : ℕ → Bool} {hashpower : ℕ} {s₀ : Cache}
    (hinit : Cache.init limit set mallocOk hashpower = some s₀) (htalk : Path Talk (start s₀) xs st)
    (hclock : (xs.map Prod.fst).Pairwise fun a b => a.now ≤ b.now) (hplain : ∀ a ∈ xs.map Prod.fst, a.Plain)
    (hapart : Apart s₀.bucketOf (keysOf (xs.map Prod.fst))) (hxs : xs = pre ++ (a, r) :: post)
    (hreq : a.req = .get k) (hk : k.length ≤ KEY_MAX_LENGTH) :
    ((pre.foldl Journal.note .empty).owed a.conn).isSome ∧ r = .none ∨
      (∃ t id, (pre.foldl Journal.note .empty).lookup a.now k = some t ∧ r = .value t.value t.flags id) ∨
      (pre.foldl Journal.note .empty).lookup a.now k = none ∧ r = .miss := by
  have hclock' : xs.Pairwise fun x y => x.1.now ≤ y.1.now :=
    List.Pairwise.of_map Prod.fst (fun _ _ h => h) hclock
  have hnames : ∀ x ∈ xs, ∀ k ∈ x.1.req.names, k ∈ keysOf (xs.map Prod.fst) := fun x hx k hk =>
    ⟨x.1, List.mem_map_of_mem hx, hk⟩
  have hplain' : ∀ x ∈ xs, x.1.Plain := fun x hx => hplain x.1 (List.mem_map_of_mem hx)
  have hpath := talk_refines hinit htalk
  generalize keysOf (xs.map Prod.fst) = keys at hapart hnames
  subst hxs
  obtain ⟨I, hpre, hrest⟩ := Path.append_iff.mp hpath
  obtain ⟨hpreclock, -, hbefore⟩ := List.pairwise_append.mp hclock'
  have hle : ∀ x ∈ pre, x.1.now ≤ a.now := fun x hx => hbefore x hx (a, r) (List.mem_cons_self ..)
  have hzero : ∀ t : UInt32, 0 ≤ t := fun t => UInt32.le_iff_toNat_le.mpr (Nat.zero_le _)
  have hexact := Journal.exact_of_path hpre (Journal.exact_empty keys 0) hapart hpreclock (fun x _ => hzero _)
    (fun x hx => hnames x (List.mem_append_left _ hx)) (fun x hx => hplain' x (List.mem_append_left _ hx))
    (hzero a.now) hle
  have hlook := hexact.told a.now (UInt32.le_refl _) k
  cases hrest with
  | cons hstep _ =>
    rcases hstep.of_get hreq with ⟨rfl, hno⟩ | ⟨-, hlong⟩ | ⟨e, he, rfl⟩ | ⟨he, rfl⟩
    · refine .inl ⟨?_, rfl⟩
      rw [hexact.owed, Option.isSome_iff_ne_none]
      intro hfree
      unfold Ideal.Allowed at hno
      rw [hreq, hfree] at hno
      exact hno trivial
    · omega
    · rw [he, Option.map_some] at hlook
      exact .inr (.inl ⟨e.told, e.id, hlook.symm, rfl⟩)
    · rw [he, Option.map_none] at hlook
      exact .inr (.inr ⟨hlook.symm, rfl⟩)

theorem reads_fresh_setThenGet : ∃ s₀ st pre, Cache.init 1 smallSettings (fun _ => true) 0 = some s₀ ∧
    Path Talk (start s₀) (pre ++ [(⟨1, 0, .get [97]⟩, .value [120, 13, 10] 9 1)]) st ∧
    ∃ t, (pre.foldl Journal.note .empty).lookup 1 [97] = some t ∧ t.value = [120, 13, 10] ∧ t.flags = 9 := by
  have htrial : (trial 1 0 setThenGet).any
    (fun st => decide (st.answer = .value [120, 13, 10] 9 1)) = true := by
    decide +kernel
  obtain ⟨s₀, st, hinit, hrun, hp⟩ := exists_of_trial htrial
  have hanswer : st.answer = .value [120, 13, 10] 9 1 := of_decide_eq_true hp
  obtain ⟨pre, -, htalk⟩ := exists_talk_snoc hrun
  rw [hanswer] at htalk
  exact ⟨s₀, st, pre, hinit, htalk, reads_fresh hinit htalk rfl rfl⟩

theorem answers_exact_setThenGet : ∃ s₀ st pre, Cache.init 1 smallSettings (fun _ => true) 0 = some s₀ ∧
    pre.map Prod.fst = storing 1 0 (shortLine .set 97 0 0 0) set_ne_error ∧
    Path Talk (start s₀) (pre ++ [(⟨1, 0, .get [97]⟩, st.answer)]) st ∧
    ∃ t id, (pre.foldl Journal.note .empty).lookup 1 [97] = some t ∧
      st.answer = .value t.value t.flags id := by
  have htrial : (trial 1 0 setThenGet).any
    (fun st => decide (st.answer = .value [120, 13, 10] 9 1)) = true := by
    decide +kernel
  obtain ⟨s₀, st, hinit, hrun, hp⟩ := exists_of_trial htrial
  have hanswer : st.answer = .value [120, 13, 10] 9 1 := of_decide_eq_true hp
  obtain ⟨pre, hpre, htalk⟩ := exists_talk_snoc hrun
  have hmap : (pre ++ [((⟨1, 0, .get [97]⟩ : Action), st.answer)]).map Prod.fst = setThenGet := by
    rw [List.map_append, hpre]
    rfl
  have hkeys : ∀ k ∈ keysOf setThenGet, k = [97] := by
    rintro k ⟨a, ha, hk⟩
    simp only [setThenGet, storing, List.mem_append, List.mem_cons, List.not_mem_nil, or_false] at ha
    rcases ha with (rfl | rfl) | rfl <;> simp [Request.names, shortLine] at hk <;> exact hk.symm
  have hplain : ∀ a ∈ setThenGet, a.Plain := by
    intro a ha L hcmd hreq
    simp only [setThenGet, storing, List.mem_append, List.mem_cons, List.not_mem_nil, or_false] at ha
    rcases ha with (rfl | rfl) | rfl <;> cases hreq
    decide
  refine ⟨s₀, st, pre, hinit, hpre, htalk, ?_⟩
  rcases answers_exact hinit htalk (by rw [hmap]; decide) (hmap.symm ▸ hplain)
    (hmap.symm ▸ fun j hj k hk _ => (hkeys j hj).trans (hkeys k hk).symm) rfl rfl (by decide) with
    ⟨-, hr⟩ | hexact | ⟨-, hr⟩
  · cases hanswer.symm.trans hr
  · exact hexact
  · cases hanswer.symm.trans hr

end Service

end MiniMemcached
