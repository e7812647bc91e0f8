import Mathlib.Algebra.BigOperators.Group.Finset.Basic
import Mathlib.Algebra.Order.BigOperators.Group.Finset
import MiniMemcached.Cache.Buckets
import MiniMemcached.Runs.Steps

/-! The hash table against a finite map from keys to items. A run inserts items
and deletes keys in the table and in the map side by side, for any assignment
of hash values to keys. The table agrees with the map, and `hashitems` with the
number of chained items, as long as no `hash_delete` names the key at the head
of its chain (and fewer than `2 ^ 32` items are chained). -/

namespace MiniMemcached.TableMap

open MiniMemcached.Lists Runs

/-- The calls that change the table. -/
inductive Op
  | insert (it : Ptr)
  | delete (key : List UInt8)
  deriving DecidableEq

/-- The table in memory, and the finite map it stands for. -/
structure State where
  items : Items
  table : HashTable
  map : List UInt8 → Option Ptr

variable (hash : List UInt8 → UInt32) (bound : ℕ)

def step (s : State) : Op → Result State
  | .insert it =>
    .ok { items := (hashInsert s.items s.table it (hash (s.items.key it))).1
          table := (hashInsert s.items s.table it (hash (s.items.key it))).2
          map := Function.update s.map (s.items.key it) (some it) }
  | .delete key => do
    let r ← hashDelete bound s.items s.table key (hash key)
    pure { items := r.1, table := r.2, map := Function.update s.map key none }

/-- The callers insert items that are not in the table, and never two items with
the same key. -/
def Lawful (s : State) : Op → Prop
  | .insert it => (∀ k, s.map k ≠ some it) ∧ s.map (s.items.key it) = none
  | .delete _ => True

/-- The number of items met in the chains of the table. -/
def itemCount (m : Items) (h : HashTable) : ℕ :=
  ∑ b ∈ Finset.range (HashTable.hashsize h.hashpower),
    (walk m.hNext bound (h.primaryHashtable b)).length

/-- Every lookup gives what the map holds, and `hashitems` counts the chained items. -/
def Agrees (s : State) : Prop :=
  (∀ k, hashFind bound s.items s.table k (hash k) = .ok (s.map k)) ∧
    s.table.hashitems.toNat = itemCount bound s.items s.table

/-- The deleted key is not the key of its bucket's head, and `hashitems` has room. -/
def HeadSafe (s : State) : Op → Prop
  | .insert _ => s.table.hashitems ≠ 0xffffffff
  | .delete key =>
    ∀ p, s.table.primaryHashtable (s.table.bucket (hash key)) = some p → s.items.key p ≠ key

/-- The table as lists, with room in the walks for `n` more items. -/
structure Rep (s : State) (n : ℕ) (B : ℕ → List Ptr) : Prop where
  buckets : Buckets hash s.items s.table B
  map_iff : ∀ k p, s.map k = some p ↔ (∃ b, p ∈ B b) ∧ s.items.key p = k
  room : ∑ b ∈ Finset.range (HashTable.hashsize s.table.hashpower), (B b).length + n ≤ bound

theorem sum_update {N b₀ : ℕ} (hb : b₀ < N) (B : ℕ → List Ptr) (l : List Ptr) :
    ∑ b ∈ Finset.range N, (Function.update B b₀ l b).length + (B b₀).length =
      ∑ b ∈ Finset.range N, (B b).length + l.length := by
  have hmem : b₀ ∈ Finset.range N := Finset.mem_range.mpr hb
  have hrest : ∑ b ∈ (Finset.range N).erase b₀, (Function.update B b₀ l b).length =
      ∑ b ∈ (Finset.range N).erase b₀, (B b).length :=
    Finset.sum_congr rfl fun b hbm => by rw [Function.update_of_ne (Finset.ne_of_mem_erase hbm)]
  rw [← Finset.add_sum_erase _ _ hmem, ← Finset.add_sum_erase _ _ hmem, hrest,
    Function.update_self]
  omega

variable {hash bound} {s : State} {n : ℕ} {B : ℕ → List Ptr}

namespace Rep

theorem length_le (h : Rep hash bound s n B) (b : ℕ) : (B b).length + n ≤ bound := by
  by_cases hb : b < HashTable.hashsize s.table.hashpower
  · have := Finset.single_le_sum (f := fun b => (B b).length) (fun _ _ => Nat.zero_le _)
      (Finset.mem_range.mpr hb)
    exact (Nat.add_le_add_right this n).trans h.room
  · cases hB : B b with
    | nil =>
      have := h.room
      simp only [List.length_nil]
      omega
    | cons p l =>
      have := h.buckets.home b p (by simp [hB])
      have := s.table.bucket_lt (hash (s.items.key p))
      omega

theorem itemCount_eq (h : Rep hash bound s n B) :
    itemCount bound s.items s.table =
      ∑ b ∈ Finset.range (HashTable.hashsize s.table.hashpower), (B b).length := by
  unfold itemCount
  refine Finset.sum_congr rfl fun b _ => ?_
  rw [(h.buckets.chain b).walk_eq]
  have := h.length_le b
  omega

theorem find_eq (h : Rep hash bound s n B) (k : List UInt8) :
    hashFind bound s.items s.table k (hash k) = .ok (s.map k) := by
  have hlen : (B (s.table.bucket (hash k))).length ≤ bound := by
    have := h.length_le (s.table.bucket (hash k))
    omega
  cases hk : s.map k with
  | none =>
    rw [h.buckets.find_none_iff k hlen]
    rintro b p hp rfl
    rw [(h.map_iff _ p).mpr ⟨⟨b, hp⟩, rfl⟩] at hk
    simp at hk
  | some p => exact (h.buckets.find_some_iff k hlen p).mpr ((h.map_iff k p).mp hk)

/-- One insertion. -/
theorem insert (h : Rep hash bound s (n + 1) B) {it : Ptr} (hlaw : Lawful s (.insert it)) :
    ∃ s', step hash bound s (.insert it) = .ok s' ∧
      s'.table.hashitems = s.table.hashitems + 1 ∧
      Rep hash bound s' n (Function.update B (s.table.bucket (hash (s.items.key it)))
        (it :: B (s.table.bucket (hash (s.items.key it))))) := by
  obtain ⟨hfresh, hkey⟩ := hlaw
  have hit : ∀ b, it ∉ B b := fun b hb =>
    hfresh _ ((h.map_iff _ it).mpr ⟨⟨b, hb⟩, rfl⟩)
  have hkeys : ∀ b, ∀ p ∈ B b, s.items.key p ≠ s.items.key it := by
    intro b p hp heq
    have := (h.map_iff _ p).mpr ⟨⟨b, hp⟩, heq⟩
    simp [hkey] at this
  refine ⟨_, rfl, rfl, h.buckets.insert hit hkeys, fun k p => ?_, ?_⟩
  · change Function.update s.map _ (some it) k = some p ↔ _ ∧ s.items.key p = k
    by_cases hk : k = s.items.key it
    · subst hk
      rw [Function.update_self]
      constructor
      · rintro ⟨⟩
        exact ⟨⟨s.table.bucket (hash (s.items.key it)), by simp⟩, rfl⟩
      · rintro ⟨⟨b, hp⟩, hpk⟩
        simp only [Function.update_apply] at hp
        split_ifs at hp with hb
        · rcases List.mem_cons.mp hp with rfl | hp
          · rfl
          · exact absurd hpk (hkeys _ p hp)
        · exact absurd hpk (hkeys b p hp)
    · rw [Function.update_of_ne hk, h.map_iff]
      constructor
      · rintro ⟨⟨b, hp⟩, hpk⟩
        refine ⟨⟨b, ?_⟩, hpk⟩
        simp only [Function.update_apply]
        split_ifs with hb
        · exact List.mem_cons_of_mem _ (hb ▸ hp)
        · exact hp
      · rintro ⟨⟨b, hp⟩, rfl⟩
        simp only [Function.update_apply] at hp
        split_ifs at hp with hb
        · rcases List.mem_cons.mp hp with rfl | hp
          · exact absurd rfl hk
          · exact ⟨⟨_, hp⟩, rfl⟩
        · exact ⟨⟨b, hp⟩, rfl⟩
  · have hsum := sum_update (s.table.bucket_lt (hash (s.items.key it))) B
      (it :: B (s.table.bucket (hash (s.items.key it))))
    have hroom := h.room
    simp only [List.length_cons] at hsum
    change ∑ b ∈ Finset.range (HashTable.hashsize s.table.hashpower), _ + n ≤ bound
    omega

/-- One deletion; the bucket keeps what `dropKey` leaves. -/
theorem delete (h : Rep hash bound s (n + 1) B) (key : List UInt8) :
    ∃ s', step hash bound s (.delete key) = .ok s' ∧
      s'.table.hashpower = s.table.hashpower ∧
      Buckets hash s'.items s'.table (Function.update B (s.table.bucket (hash key))
        (dropKey s.items key (B (s.table.bucket (hash key))))) ∧
      (HeadSafe hash s (.delete key) → Rep hash bound s' n
        (Function.update B (s.table.bucket (hash key))
          (dropKey s.items key (B (s.table.bucket (hash key)))))) ∧
      s'.table.hashitems =
        (if ∃ q ∈ B (s.table.bucket (hash key)), s.items.keyIs q key = true then
          (if ∃ q ∈ (B (s.table.bucket (hash key))).head?, s.items.keyIs q key = true
            then s.table.hashitems else s.table.hashitems - 1) else s.table.hashitems) := by
  set b₀ := s.table.bucket (hash key) with hb₀
  obtain ⟨f, P, c, hdel, hB', hc⟩ := h.buckets.delete key
    (n := bound) (Nat.le_of_add_right_le (h.length_le _))
  refine ⟨⟨{ s.items with hNext := f }, { s.table with primaryHashtable := P, hashitems := c },
    Function.update s.map key none⟩, by simp [step, hdel, bind, Except.bind, pure, Except.pure],
    rfl, hB', fun hsafe => ?_, hc⟩
  have hsub := dropKey_sublist s.items key (B b₀)
  have hhead : ∀ q ∈ (B b₀).head?, s.items.keyIs q key = false := by
    intro q hq
    have hstart := (h.buckets.chain b₀).start_eq
    rw [Option.mem_def.mp hq] at hstart
    have := hsafe q hstart
    rwa [← Bool.not_eq_true, Items.keyIs_iff]
  refine ⟨hB', fun k p => ?_, ?_⟩
  · change Function.update s.map key none k = some p ↔ _ ∧ s.items.key p = k
    by_cases hk : k = key
    · subst hk
      rw [Function.update_self]
      simp only [reduceCtorEq, false_iff, not_and, forall_exists_index]
      intro b hp hpk
      simp only [Function.update_apply] at hp
      split_ifs at hp with hb
      · have := keyIs_of_mem_dropKey (h.buckets.keys b₀) hp
        rw [← Bool.not_eq_true, Items.keyIs_iff] at this
        exact this hpk
      · exact hb (by rw [hb₀, ← hpk]; exact (h.buckets.home b p hp).symm)
    · rw [Function.update_of_ne hk, h.map_iff]
      constructor
      · rintro ⟨⟨b, hp⟩, rfl⟩
        refine ⟨⟨b, ?_⟩, rfl⟩
        simp only [Function.update_apply]
        split_ifs with hb
        · subst hb
          refine mem_dropKey_of_ne hp ?_ hhead
          rwa [← Bool.not_eq_true, Items.keyIs_iff]
        · exact hp
      · rintro ⟨⟨b, hp⟩, rfl⟩
        simp only [Function.update_apply] at hp
        split_ifs at hp with hb
        · exact ⟨⟨b₀, hsub.subset hp⟩, rfl⟩
        · exact ⟨⟨b, hp⟩, rfl⟩
  · have hsum := sum_update (s.table.bucket_lt (hash key)) B (dropKey s.items key (B b₀))
    rw [← hb₀] at hsum
    have hroom := h.room
    have hlen := hsub.length_le
    change ∑ b ∈ Finset.range (HashTable.hashsize s.table.hashpower), _ + n ≤ bound
    omega

end Rep

/-- The invariant of the runs whose steps are safe. -/
def Inv (hash : List UInt8 → UInt32) (bound : ℕ) (s : State) (ops : List Op) : Prop :=
  ∃ B, Rep hash bound s ops.length B ∧
    s.table.hashitems.toNat =
      ∑ b ∈ Finset.range (HashTable.hashsize s.table.hashpower), (B b).length

theorem Inv.agrees {ops : List Op} (h : Inv hash bound s ops) : Agrees hash bound s := by
  obtain ⟨B, hrep, hcount⟩ := h
  exact ⟨hrep.find_eq, by rw [hcount, hrep.itemCount_eq]⟩

/-- The table of a fresh server, over any items. -/
def init (m : Items) (hashpower : ℕ) : State :=
  ⟨m, HashTable.init hashpower, fun _ => none⟩

theorem init_inv (m : Items) (hashpower : ℕ) {ops : List Op} (hb : ops.length ≤ bound) :
    Inv hash bound (init m hashpower) ops := by
  refine ⟨fun _ => [], ⟨Buckets.empty hash m hashpower, fun k p => ?_, ?_⟩, ?_⟩
  · simp [init]
  · simpa using hb
  · simp [init, HashTable.init]

/-- How a deletion changes the number of listed items. -/
theorem sum_dropKey (hash : List UInt8 → UInt32) (s : State) (B : ℕ → List Ptr) (key : List UInt8) :
    let b₀ := s.table.bucket (hash key)
    let N := HashTable.hashsize s.table.hashpower
    ((∃ q ∈ B b₀, s.items.keyIs q key = true) →
      ∑ b ∈ Finset.range N, (Function.update B b₀ (dropKey s.items key (B b₀)) b).length <
        ∑ b ∈ Finset.range N, (B b).length) ∧
    ((∀ q ∈ (B b₀).head?, s.items.keyIs q key = false) →
      ∑ b ∈ Finset.range N, (Function.update B b₀ (dropKey s.items key (B b₀)) b).length +
        (if ∃ q ∈ B b₀, s.items.keyIs q key = true then 1 else 0) =
        ∑ b ∈ Finset.range N, (B b).length) := by
  intro b₀ N
  have hsum := sum_update (s.table.bucket_lt (hash key)) B (dropKey s.items key (B b₀))
  change ∑ b ∈ Finset.range N, (Function.update B b₀ (dropKey s.items key (B b₀)) b).length +
    (B b₀).length = ∑ b ∈ Finset.range N, (B b).length + (dropKey s.items key (B b₀)).length at hsum
  cases hL : B b₀ with
  | nil => simp [hL] at hsum ⊢; omega
  | cons p l =>
    rw [hL, dropKey_cons] at hsum
    rw [dropKey_cons]
    by_cases hp : s.items.keyIs p key = true
    · simp only [hp, if_true, List.length_nil, List.length_cons] at hsum ⊢
      refine ⟨fun _ => by omega, fun hhead => ?_⟩
      simp [hp] at hhead
    · simp only [hp, if_false, List.length_cons, Bool.false_eq_true] at hsum ⊢
      have hera := List.length_eraseP (p := fun q => s.items.keyIs q key) (l := l)
      by_cases hex : ∃ q ∈ l, s.items.keyIs q key = true
      · have hany : l.any (fun q => s.items.keyIs q key) = true := by simpa using hex
        have hpos : 0 < l.length := by
          obtain ⟨q, hq, -⟩ := hex
          exact List.length_pos_of_mem hq
        rw [hany, if_pos rfl] at hera
        have hex' : ∃ q ∈ p :: l, s.items.keyIs q key = true := by
          obtain ⟨q, hq, hqk⟩ := hex
          exact ⟨q, List.mem_cons_of_mem _ hq, hqk⟩
        rw [if_pos hex']
        exact ⟨fun _ => by omega, fun _ => by omega⟩
      · have hany : l.any (fun q => s.items.keyIs q key) = false := by simpa using hex
        rw [hany] at hera
        have hex' : ¬ ∃ q ∈ p :: l, s.items.keyIs q key = true := by
          rintro ⟨q, hq, hqk⟩
          rcases List.mem_cons.mp hq with rfl | hq
          · exact hp hqk
          · exact hex ⟨q, hq, hqk⟩
        rw [if_neg hex']
        simp only [Bool.false_eq_true, if_false] at hera
        exact ⟨fun h => absurd h hex', fun _ => by omega⟩

theorem inv_step (s : State) (op : Op) (ops : List Op) (s' : State)
    (hinv : Inv hash bound s (op :: ops)) (hlaw : Lawful s op) (hsafe : HeadSafe hash s op)
    (hstep : step hash bound s op = .ok s') : Inv hash bound s' ops := by
  obtain ⟨B, hrep, hcount⟩ := hinv
  cases op with
  | insert it =>
    obtain ⟨s₁, h₁, hitems, hrep'⟩ := hrep.insert hlaw
    obtain rfl : s₁ = s' := by rw [h₁] at hstep; exact Except.ok.inj hstep
    refine ⟨_, hrep', ?_⟩
    have hpow : s₁.table.hashpower = s.table.hashpower := by cases h₁; rfl
    have hsum := sum_update (s.table.bucket_lt (hash (s.items.key it))) B
      (it :: B (s.table.bucket (hash (s.items.key it))))
    have hroom : s.table.hashitems.toNat + 1 < 2 ^ 32 := by
      have hlt := s.table.hashitems.toNat_lt
      have hne : s.table.hashitems.toNat ≠ 0xffffffff := fun h => hsafe (UInt32.toNat_inj.mp h)
      omega
    rw [hitems, hpow, UInt32.toNat_add, UInt32.toNat_one, Nat.mod_eq_of_lt hroom, hcount]
    simp only [List.length_cons] at hsum
    omega
  | delete key =>
    obtain ⟨s₁, h₁, hpow, -, hrep', hitems⟩ := hrep.delete key
    obtain rfl : s₁ = s' := by rw [h₁] at hstep; exact Except.ok.inj hstep
    have hrep' := hrep' hsafe
    refine ⟨_, hrep', ?_⟩
    have hhead : ∀ q ∈ (B (s.table.bucket (hash key))).head?, s.items.keyIs q key = false := by
      intro q hq
      have hstart := (hrep.buckets.chain (s.table.bucket (hash key))).start_eq
      rw [Option.mem_def.mp hq] at hstart
      rw [← Bool.not_eq_true, Items.keyIs_iff]
      exact hsafe q hstart
    have hdrop := (sum_dropKey hash s B key).2 hhead
    have hno : ¬ ∃ q ∈ (B (s.table.bucket (hash key))).head?, s.items.keyIs q key = true := by
      rintro ⟨q, hq, hqk⟩
      simp [hhead q hq] at hqk
    rw [if_neg hno] at hitems
    rw [hitems, hpow]
    split_ifs at hdrop ⊢ with hex
    · have hle : 1 ≤ s.table.hashitems.toNat := by omega
      rw [UInt32.toNat_sub_of_le _ _ (by rw [UInt32.le_iff_toNat_le]; simpa using hle)]
      simp only [UInt32.toNat_one]
      omega
    · omega

theorem not_agrees_of_unsafe (s : State) (op : Op) (ops : List Op)
    (hinv : Inv hash bound s (op :: ops)) (hlaw : Lawful s op) (hbad : ¬ HeadSafe hash s op) :
    ∃ s', step hash bound s op = .ok s' ∧ ¬ Agrees hash bound s' := by
  obtain ⟨B, hrep, hcount⟩ := hinv
  cases op with
  | insert it =>
    obtain ⟨s', h', hitems, hrep'⟩ := hrep.insert hlaw
    refine ⟨s', h', fun hagree => ?_⟩
    have hfull : s.table.hashitems = 0xffffffff := by simpa [HeadSafe] using hbad
    have hcount' := hagree.2
    rw [hrep'.itemCount_eq, hitems, hfull] at hcount'
    have hpow : s'.table.hashpower = s.table.hashpower := by cases h'; rfl
    have hsum := sum_update (s.table.bucket_lt (hash (s.items.key it))) B
      (it :: B (s.table.bucket (hash (s.items.key it))))
    rw [hpow] at hcount'
    rw [hfull] at hcount
    simp only [List.length_cons] at hsum
    simp at hcount' hcount
    omega
  | delete key =>
    obtain ⟨s', h', hpow, hB', -, hitems⟩ := hrep.delete key
    refine ⟨s', h', fun hagree => ?_⟩
    -- the head carries the key: its chain is gone, but `hashitems` stays
    simp only [HeadSafe, not_forall, not_not] at hbad
    obtain ⟨p, hp, hpk⟩ := hbad
    have hstart := (hrep.buckets.chain (s.table.bucket (hash key))).start_eq
    rw [hp] at hstart
    have hpk' : s.items.keyIs p key = true := (s.items.keyIs_iff p key).mpr hpk
    have hhead : ∃ q ∈ (B (s.table.bucket (hash key))).head?, s.items.keyIs q key = true :=
      ⟨p, hstart.symm, hpk'⟩
    have hmem : ∃ q ∈ B (s.table.bucket (hash key)), s.items.keyIs q key = true :=
      ⟨p, List.mem_of_mem_head? hstart.symm, hpk'⟩
    rw [if_pos hmem, if_pos hhead] at hitems
    have hless := (sum_dropKey hash s B key).1 hmem
    have hcount' := hagree.2
    have hwalk : itemCount bound s'.items s'.table ≤
        ∑ b ∈ Finset.range (HashTable.hashsize s.table.hashpower),
          (Function.update B (s.table.bucket (hash key))
            (dropKey s.items key (B (s.table.bucket (hash key)))) b).length := by
      rw [itemCount, hpow]
      refine Finset.sum_le_sum fun b _ => ?_
      rw [(hB'.chain b).walk_eq]
      have hle := hrep.length_le b
      simp only [Function.update_apply]
      split_ifs with hb
      · have := (dropKey_sublist s.items key (B (s.table.bucket (hash key)))).length_le
        rw [← hb] at this ⊢
        omega
      · omega
    rw [hitems] at hcount'
    omega

/-- A run of insertions and deletions agrees with the finite map in every state
just when no deletion names a key at the head of its chain, and `hashitems` has
room for every insertion. -/
theorem agrees_iff_headSafe (hash : List UInt8 → UInt32) (m : Items) (hashpower bound : ℕ)
    (ops : List Op) (hbound : ops.length ≤ bound)
    (hlaw : EachStep (step hash bound) Lawful (init m hashpower) ops) :
    Throughout (step hash bound) (Agrees hash bound) (init m hashpower) ops ↔
      EachStep (step hash bound) (HeadSafe hash) (init m hashpower) ops :=
  throughout_iff_eachStep (I := Inv hash bound) inv_step (fun _ _ h => h.agrees)
    not_agrees_of_unsafe (init_inv m hashpower hbound) hlaw

/-- Items with keys of one byte, the offset of the item. -/
def oneByteItems : Items :=
  { Items.zero with nkey := fun _ => 1, data := fun p _ => UInt8.ofNat p.off }

/-- Two items in one bucket, and the deletion of a key. -/
def insertTwoDelete (key : List UInt8) : List Op := [.insert ⟨0, 0⟩, .insert ⟨0, 1⟩, .delete key]

theorem insertTwoDelete_lawful (key : List UInt8) :
    EachStep (step (fun _ => 0) 3) Lawful (init oneByteItems 0) (insertTwoDelete key) := by
  refine ⟨⟨fun k => ?_, rfl⟩, ?_⟩
  · simp [init]
  · rintro s ⟨rfl⟩
    refine ⟨⟨fun k => ?_, rfl⟩, fun s _ => ⟨trivial, fun _ _ => trivial⟩⟩
    simp only [init, Function.update_apply]
    split_ifs <;> simp

/-- The deleted key is that of the older item, at the end of the chain. -/
theorem agrees_deleteLast : Throughout (step (fun _ => 0) 3) (Agrees (fun _ => 0) 3)
    (init oneByteItems 0) (insertTwoDelete [0]) := by
  have hroom₀ : HeadSafe (fun _ => 0) (init oneByteItems 0) (.insert ⟨0, 0⟩) := fun h => by
    cases h
  refine (agrees_iff_headSafe (fun _ => 0) oneByteItems 0 3 (insertTwoDelete [0]) (by decide)
    (insertTwoDelete_lawful [0])).mpr ⟨hroom₀, ?_⟩
  rintro s ⟨rfl⟩
  refine ⟨fun h => (by cases h), ?_⟩
  rintro s ⟨rfl⟩
  refine ⟨?_, fun _ _ => trivial⟩
  rintro p ⟨rfl⟩
  decide

/-- The deleted key is that of the head, and the lookup of the other key gives null. -/
theorem disagrees_deleteHead :
    EachStep (step (fun _ => 0) 3) Lawful (init oneByteItems 0) (insertTwoDelete [1]) ∧
      ∃ s, run (step (fun _ => 0) 3) (init oneByteItems 0) (insertTwoDelete [1]) = .ok s ∧
        hashFind 3 s.items s.table [0] 0 = .ok none ∧ s.map [0] = some ⟨0, 0⟩ ∧
        ¬Agrees (fun _ => 0) 3 s := by
  refine ⟨insertTwoDelete_lawful [1], _, rfl, by decide, by decide, fun h => ?_⟩
  have hfind := h.1 [0]
  revert hfind
  decide

end MiniMemcached.TableMap
