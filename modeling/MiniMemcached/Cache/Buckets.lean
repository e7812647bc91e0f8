import MiniMemcached.Cache.HashTable

/-! The hash table as a family of lists. `Buckets` relates the pointers of the
table to one list of items for each bucket: the chain of the bucket, all of
whose items hash there, with no key twice. The three operations are described
on these lists: `hash_find` takes the first item with the key, `hash_insert`
puts the item in front, and `hash_delete` erases the item with the key, except
that it empties the whole bucket when that item is the head. -/

namespace MiniMemcached

open MiniMemcached.Lists

/-- `hash` gives the hash value of every key. -/
structure Buckets (hash : List UInt8 → UInt32) (m : Items) (h : HashTable)
    (B : ℕ → List Ptr) : Prop where
  chain : ∀ b, Chain m.hNext (h.primaryHashtable b) (B b)
  home : ∀ b, ∀ p ∈ B b, h.bucket (hash (m.key p)) = b
  keys : ∀ b, ((B b).map m.key).Nodup

/-- What `hash_delete` leaves of a bucket. -/
def dropKey (m : Items) (key : List UInt8) : List Ptr → List Ptr
  | [] => []
  | p :: l => if m.keyIs p key then [] else p :: l.eraseP fun q => m.keyIs q key

@[simp] theorem dropKey_nil (m : Items) (key : List UInt8) : dropKey m key [] = [] := rfl

theorem dropKey_cons (m : Items) (key : List UInt8) (p : Ptr) (l : List Ptr) :
    dropKey m key (p :: l) =
      if m.keyIs p key then [] else p :: l.eraseP fun q => m.keyIs q key := rfl

theorem dropKey_sublist (m : Items) (key : List UInt8) (l : List Ptr) :
    (dropKey m key l).Sublist l := by
  cases l with
  | nil => exact List.Sublist.refl _
  | cons p l =>
    rw [dropKey_cons]
    split_ifs
    · exact List.nil_sublist _
    · exact List.eraseP_sublist.cons_cons p

theorem keyIs_of_mem_eraseP {m : Items} {key : List UInt8} {l : List Ptr}
    (hl : (l.map m.key).Nodup) {p : Ptr} (hp : p ∈ l.eraseP fun q => m.keyIs q key) :
    m.keyIs p key = false := by
  induction l with
  | nil => simp at hp
  | cons r l ih =>
    rw [List.eraseP_cons] at hp
    rw [List.map_cons, List.nodup_cons] at hl
    by_cases hr : m.keyIs r key = true
    · -- `r` is the erased item, and no later item has its key
      simp only [hr, cond_true] at hp
      by_contra hpk
      rw [Bool.not_eq_false, Items.keyIs_iff] at hpk
      rw [Items.keyIs_iff] at hr
      exact hl.1 (List.mem_map.mpr ⟨p, hp, by rw [hpk, hr]⟩)
    · simp only [hr, cond_false] at hp
      rcases List.mem_cons.mp hp with rfl | hp
      · simpa using hr
      · exact ih hl.2 hp

/-- Without two items of one key, `hash_delete` leaves none with the key. -/
theorem keyIs_of_mem_dropKey {m : Items} {key : List UInt8} {l : List Ptr}
    (hl : (l.map m.key).Nodup) {p : Ptr} (hp : p ∈ dropKey m key l) : m.keyIs p key = false := by
  cases l with
  | nil => simp at hp
  | cons q l =>
    rw [dropKey_cons] at hp
    split_ifs at hp with hq
    · simp at hp
    · rcases List.mem_cons.mp hp with rfl | hp
      · simpa using hq
      · exact keyIs_of_mem_eraseP (List.nodup_cons.mp hl).2 hp

theorem mem_dropKey_of_ne {m : Items} {key : List UInt8} {l : List Ptr} {p : Ptr} (hp : p ∈ l)
    (hk : m.keyIs p key = false) (hhead : ∀ q ∈ l.head?, m.keyIs q key = false) :
    p ∈ dropKey m key l := by
  cases l with
  | nil => exact hp
  | cons q l =>
    have hq : m.keyIs q key = false := hhead q (by simp)
    rw [dropKey_cons, if_neg (by simp [hq])]
    rcases List.mem_cons.mp hp with rfl | hp
    · simp
    · exact List.mem_cons_of_mem _ ((List.mem_eraseP_of_neg (by simp [hk])).mpr hp)

theorem findFrom_eq {m : Items} {key : List UInt8} {start : Option Ptr} {l : List Ptr}
    (h : Chain m.hNext start l) {n : ℕ} (hn : l.length ≤ n) :
    findFrom m key n start = .ok (l.find? fun p => m.keyIs p key) := by
  induction l generalizing start n with
  | nil =>
    rw [chain_nil] at h
    subst h
    cases n <;> rfl
  | cons p l ih =>
    obtain ⟨n, rfl⟩ : ∃ k, n = k + 1 := ⟨n - 1, by simp at hn; omega⟩
    rw [h.1, findFrom, List.find?_cons]
    by_cases hp : m.keyIs p key = true
    · simp [hp]
    · rw [if_neg hp, ih h.2 (by simpa using hn)]
      simp [hp]

/-- Where the loop of `hash_delete` stops: at the last item, or at the item in
front of the first one with the key. -/
theorem posFrom_eq {m : Items} (key : List UInt8) {a : Ptr} {l : List Ptr}
    (h : Chain m.hNext (m.hNext a) l) {n : ℕ} (hn : l.length < n) :
    ∃ at_, posFrom m key n a = .ok at_ ∧
      ((m.hNext at_ = none ∧ ∀ q ∈ l, m.keyIs q key = false) ∨
        ∃ l₁ it l₂, a :: l = l₁ ++ at_ :: it :: l₂ ∧ m.hNext at_ = some it ∧
          m.keyIs it key = true ∧ l.eraseP (fun q => m.keyIs q key) = (l₁ ++ at_ :: l₂).tail) := by
  induction l generalizing a n with
  | nil =>
    obtain ⟨n, rfl⟩ : ∃ k, n = k + 1 := ⟨n - 1, by simp at hn; omega⟩
    rw [chain_nil] at h
    exact ⟨a, by simp [posFrom, h], .inl ⟨h, by simp⟩⟩
  | cons b l ih =>
    obtain ⟨n, rfl⟩ : ∃ k, n = k + 1 := ⟨n - 1, by simp at hn; omega⟩
    obtain ⟨hab, hl⟩ := h
    by_cases hb : m.keyIs b key = true
    · exact ⟨a, by simp [posFrom, hab, hb], .inr ⟨[], b, l, by simp, hab, hb, by simp [hb]⟩⟩
    · obtain ⟨at_, hpos, hcase⟩ := ih hl (by simpa using hn)
      refine ⟨at_, by simp [posFrom, hab, hb, hpos], ?_⟩
      rcases hcase with ⟨hnone, hall⟩ | ⟨l₁, it, l₂, hsplit, hat, hit, hera⟩
      · exact .inl ⟨hnone, by simp_all⟩
      · refine .inr ⟨a :: l₁, it, l₂, by simp [hsplit], hat, hit, ?_⟩
        rw [List.eraseP_cons_of_neg (p := fun q => m.keyIs q key) hb, hera]
        cases l₁ with
        | nil => simp at hsplit ⊢; exact hsplit.1
        | cons c l₁ => simp at hsplit ⊢; exact hsplit.1

namespace Buckets

variable {hash : List UInt8 → UInt32} {m : Items} {h : HashTable} {B : ℕ → List Ptr}

theorem bucket_eq (hB : Buckets hash m h B) {b : ℕ} {p : Ptr} (hp : p ∈ B b) :
    p ∈ B (h.bucket (hash (m.key p))) := by
  rwa [hB.home b p hp]

/-- An item is chained in one bucket only. -/
theorem bucket_unique (hB : Buckets hash m h B) {b b' : ℕ} {p : Ptr} (hp : p ∈ B b)
    (hp' : p ∈ B b') : b = b' := by
  rw [← hB.home b p hp, hB.home b' p hp']

/-- Two chained items with the same key are the same item. -/
theorem key_inj (hB : Buckets hash m h B) {b b' : ℕ} {p q : Ptr} (hp : p ∈ B b) (hq : q ∈ B b')
    (hk : m.key p = m.key q) : p = q := by
  have hbb : b = b' := by rw [← hB.home b p hp, ← hB.home b' q hq, hk]
  subst hbb
  exact List.inj_on_of_nodup_map (hB.keys b) hp hq hk

theorem find_eq (hB : Buckets hash m h B) (key : List UInt8) {n : ℕ}
    (hn : (B (h.bucket (hash key))).length ≤ n) :
    hashFind n m h key (hash key) =
      .ok ((B (h.bucket (hash key))).find? fun p => m.keyIs p key) :=
  findFrom_eq (hB.chain _) hn

/-- `hash_find` gives the chained item that carries the key. -/
theorem find_some_iff (hB : Buckets hash m h B) (key : List UInt8) {n : ℕ}
    (hn : (B (h.bucket (hash key))).length ≤ n) (p : Ptr) :
    hashFind n m h key (hash key) = .ok (some p) ↔ (∃ b, p ∈ B b) ∧ m.key p = key := by
  rw [hB.find_eq key hn]
  constructor
  · intro hf
    have hf : (B (h.bucket (hash key))).find? (fun p => m.keyIs p key) = some p := by
      simpa using hf
    exact ⟨⟨_, List.mem_of_find?_eq_some hf⟩,
      (m.keyIs_iff p key).mp (by simpa using List.find?_some hf)⟩
  · rintro ⟨⟨b, hp⟩, rfl⟩
    have hp := hB.bucket_eq hp
    cases hf : (B (h.bucket (hash (m.key p)))).find? (fun q => m.keyIs q (m.key p)) with
    | none =>
      have := List.find?_eq_none.mp hf p hp
      simp [Items.keyIs_iff] at this
    | some q =>
      have hq := List.mem_of_find?_eq_some hf
      have hkey : m.key q = m.key p := (m.keyIs_iff q _).mp (by simpa using List.find?_some hf)
      rw [hB.key_inj hq hp hkey]

theorem find_none_iff (hB : Buckets hash m h B) (key : List UInt8) {n : ℕ}
    (hn : (B (h.bucket (hash key))).length ≤ n) :
    hashFind n m h key (hash key) = .ok none ↔ ∀ b, ∀ p ∈ B b, m.key p ≠ key := by
  constructor
  · rintro hf b p hp rfl
    have := (hB.find_some_iff (m.key p) hn p).mpr ⟨⟨b, hp⟩, rfl⟩
    simp [this] at hf
  · intro hall
    rw [hB.find_eq key hn]
    congr 1
    rw [List.find?_eq_none]
    intro p hp
    rw [Items.keyIs_iff]
    exact hall _ p hp

/-- Memory that agrees on `h_next` and on the keys has the same buckets. -/
theorem congr (hB : Buckets hash m h B) {m' : Items} (hnext : m'.hNext = m.hNext)
    (hkey : ∀ b, ∀ p ∈ B b, m'.key p = m.key p) : Buckets hash m' h B where
  chain b := by rw [hnext]; exact hB.chain b
  home b p hp := by rw [hkey b p hp]; exact hB.home b p hp
  keys b := by
    rw [List.map_congr_left (hkey b)]
    exact hB.keys b

theorem empty (hash : List UInt8 → UInt32) (m : Items) (n : ℕ) :
    Buckets hash m (HashTable.init n) fun _ => [] where
  chain _ := rfl
  home _ p hp := by simp at hp
  keys _ := by simp

/-- `hash_insert` of an item outside the table with a key outside the table. -/
theorem insert (hB : Buckets hash m h B) {it : Ptr} (hit : ∀ b, it ∉ B b)
    (hkey : ∀ b, ∀ p ∈ B b, m.key p ≠ m.key it) :
    Buckets hash (hashInsert m h it (hash (m.key it))).1 (hashInsert m h it (hash (m.key it))).2
      (Function.update B (h.bucket (hash (m.key it))) (it :: B (h.bucket (hash (m.key it))))) := by
  set b₀ := h.bucket (hash (m.key it)) with hb₀
  refine ⟨fun b => ?_, fun b p hp => ?_, fun b => ?_⟩
  · simp only [hashInsert, HashTable.setBucket, Items.setHNext, ← hb₀]
    by_cases hb : b = b₀
    · subst hb
      simp only [Function.update_self]
      exact (hB.chain b₀).push (hit b₀)
    · simp only [Function.update_of_ne hb]
      exact (hB.chain b).update_of_notMem (hit b) _
  · by_cases hb : b = b₀
    · subst hb
      rw [Function.update_self] at hp
      rcases List.mem_cons.mp hp with rfl | hp
      · rfl
      · exact hB.home b₀ p hp
    · rw [Function.update_of_ne hb] at hp
      exact hB.home b p hp
  · by_cases hb : b = b₀
    · subst hb
      rw [Function.update_self, List.map_cons, List.nodup_cons]
      refine ⟨fun hmem => ?_, hB.keys b₀⟩
      obtain ⟨p, hp, hpk⟩ := List.mem_map.mp hmem
      exact hkey b₀ p hp hpk
    · rw [Function.update_of_ne hb]
      exact hB.keys b

/-- The buckets after one of them lost items, when the pointers follow. -/
theorem shrink (hB : Buckets hash m h B) {b₀ : ℕ} {l : List Ptr} (hl : l.Sublist (B b₀))
    {f : Ptr → Option Ptr} {P : ℕ → Option Ptr} (n : UInt32)
    (hP : ∀ b ≠ b₀, P b = h.primaryHashtable b) (hf : ∀ p ∉ B b₀, f p = m.hNext p)
    (hchain : Chain f (P b₀) l) :
    Buckets hash { m with hNext := f } { h with primaryHashtable := P, hashitems := n }
      (Function.update B b₀ l) := by
  refine ⟨fun b => ?_, fun b p hp => ?_, fun b => ?_⟩
  · by_cases hb : b = b₀
    · subst hb
      rw [Function.update_self]
      exact hchain
    · rw [Function.update_of_ne hb]
      change Chain f (P b) (B b)
      rw [hP b hb]
      exact (hB.chain b).congr fun p hp => hf p fun hp' => hb (hB.bucket_unique hp hp')
  · by_cases hb : b = b₀
    · subst hb
      rw [Function.update_self] at hp
      exact hB.home b p (hl.subset hp)
    · rw [Function.update_of_ne hb] at hp
      exact hB.home b p hp
  · by_cases hb : b = b₀
    · subst hb
      rw [Function.update_self]
      exact (hl.map m.key).nodup (hB.keys b)
    · rw [Function.update_of_ne hb]
      exact hB.keys b

/-- `hash_delete` returns, changes only `h_next` fields and the table, and leaves
`dropKey` of the bucket. It counts the item out only behind a head with another
key. -/
theorem delete (hB : Buckets hash m h B) (key : List UInt8) {n : ℕ}
    (hn : (B (h.bucket (hash key))).length ≤ n) :
    ∃ f P c, hashDelete n m h key (hash key) =
        .ok ({ m with hNext := f }, { h with primaryHashtable := P, hashitems := c }) ∧
      Buckets hash { m with hNext := f } { h with primaryHashtable := P, hashitems := c }
        (Function.update B (h.bucket (hash key)) (dropKey m key (B (h.bucket (hash key))))) ∧
      c = (if ∃ q ∈ B (h.bucket (hash key)), m.keyIs q key = true then
        (if ∃ q ∈ (B (h.bucket (hash key))).head?, m.keyIs q key = true then h.hashitems
          else h.hashitems - 1) else h.hashitems) := by
  set b₀ := h.bucket (hash key)
  have hc := hB.chain b₀
  have hcleared : ∀ b ≠ b₀, Function.update h.primaryHashtable b₀ none b = h.primaryHashtable b :=
    fun b hb => Function.update_of_ne hb _ _
  unfold hashDelete
  cases hL : B b₀ with
  | nil =>
    rw [hL] at hc
    refine ⟨m.hNext, Function.update h.primaryHashtable b₀ none, h.hashitems, ?_, ?_, by simp⟩
    · simp [b₀, chain_nil] at hc ⊢
      simp [hc, HashTable.setBucket]
    · exact hB.shrink (by simp) _ hcleared (fun _ _ => rfl) (by simp)
  | cons p l =>
    rw [hL] at hc hn
    have hp : h.primaryHashtable (h.bucket (hash key)) = some p := hc.1
    rw [hp]
    by_cases hpk : m.keyIs p key = true
    · -- the head carries the key: the bucket is cleared
      refine ⟨m.hNext, Function.update h.primaryHashtable b₀ none, h.hashitems, ?_, ?_, ?_⟩
      · simp [hpk, HashTable.setBucket, b₀]
      · exact hB.shrink (by simp [dropKey_cons, hpk]) _ hcleared (fun _ _ => rfl)
          (by simp [dropKey_cons, hpk])
      · simp [hpk]
    · obtain ⟨at_, hpos, hcase⟩ := posFrom_eq key (n := n) hc.2 (by simp at hn; omega)
      have hdrop : dropKey m key (p :: l) = p :: l.eraseP fun q => m.keyIs q key := by
        simp [dropKey_cons, hpk]
      simp only [hpk, hpos]
      rcases hcase with ⟨hnone, hall⟩ | ⟨l₁, it, l₂, hsplit, hat, hit, hera⟩
      · refine ⟨m.hNext, h.primaryHashtable, h.hashitems, ?_, ?_, ?_⟩
        · simp [hnone, bind, Except.bind, pure, Except.pure]
        · have hself : dropKey m key (p :: l) = B b₀ := by
            rw [hdrop, hL, List.eraseP_of_forall_not (by simpa using hall)]
          rw [hself, Function.update_eq_self]
          exact hB
        · rw [if_neg]
          rintro ⟨q, hq, hqk⟩
          rcases List.mem_cons.mp hq with rfl | hq
          · exact hpk hqk
          · simp [hall q hq] at hqk
      · have hmem : it ∈ l := by
          cases l₁ with
          | nil => simp at hsplit; simp [hsplit.2]
          | cons c l₁ => simp at hsplit; simp [hsplit.2]
        have hL' : B b₀ = l₁ ++ at_ :: it :: l₂ := by rw [hL, hsplit]
        have hsub : dropKey m key (p :: l) = l₁ ++ at_ :: l₂ := by
          rw [hdrop, hera]
          cases l₁ with
          | nil => simp at hsplit ⊢; exact hsplit.1
          | cons c l₁ => simp at hsplit ⊢; exact hsplit.1
        refine ⟨Function.update (Function.update m.hNext it none) at_ (m.hNext it),
          h.primaryHashtable, h.hashitems - 1, ?_, ?_, ?_⟩
        · simp [hat, Items.setHNext, bind, Except.bind, pure, Except.pure]
        · rw [hsub]
          have hc' : Chain m.hNext (h.primaryHashtable b₀) (l₁ ++ at_ :: it :: l₂) := by
            rw [← hL']; exact hB.chain b₀
          refine hB.shrink ?_ _ (fun _ _ => rfl) (fun q hq => ?_) ?_
          · rw [hL']; simp
          · rw [hL'] at hq
            have h₁ : q ≠ at_ := by rintro rfl; simp at hq
            have h₂ : q ≠ it := by rintro rfl; simp at hq
            rw [Function.update_of_ne h₁, Function.update_of_ne h₂]
          · exact hc'.unlink_clear
        · rw [if_pos ⟨it, List.mem_cons_of_mem _ hmem, hit⟩, if_neg (by simpa using hpk)]

end Buckets

end MiniMemcached
