import MiniMemcached.Protocol.Dialogue
import MiniMemcached.Protocol.Numbers

/-! What a client can tell from the bytes. The answers carry no name of the request that
they belong to, and the one to a `get` comes with the rest of a buffer behind it; still the
bytes that went to and fro on a connection leave one way to read them, but for the reason
why a block was not stored. -/

namespace MiniMemcached

open Memory Runs

/-- What an answer says: not why a block was not stored. -/
def Answer.said : Answer → Answer
  | .stored stat => .stored (if stat = .STORED then .STORED else .NOT_STORED)
  | r => r

/-! ### One answer -/

/-- The header of a value says which flags and which id it has and how long it is. -/
theorem headerText_inj {f f' : UInt8} {n n' : ℕ} {id id' : UInt64} {x y : List UInt8}
    (h : headerText f n id ++ x = headerText f' n' id' ++ y) : f = f' ∧ n = n' ∧ id = id' ∧ x = y := by
  simp only [headerText, List.append_assoc, List.cons_append, List.nil_append] at h
  -- the fields stand between spaces
  obtain ⟨hflags, h⟩ := split_unique (notMem_decimal (by decide) _) (notMem_decimal (by decide) _)
    (List.cons.inj h).2
  obtain ⟨hlen, h⟩ := split_unique (notMem_decimalInt (by decide) _) (notMem_decimalInt (by decide) _) h
  obtain ⟨hid, h⟩ := split_unique (notMem_decimal (by decide) _) (notMem_decimal (by decide) _) h
  have hlen : decimal n = decimal n' := hlen
  exact ⟨UInt8.toNat_inj.mp (decimal_injective hflags), decimal_injective hlen,
    UInt64.toNat_inj.mp (decimal_injective hid), h⟩

theorem valueText_inj {k v v' : List UInt8} {f f' : UInt8} {id id' : UInt64} {x y : List UInt8}
    (h : valueText k f v id ++ x = valueText k f' v' id' ++ y) : v = v' ∧ f = f' ∧ id = id' := by
  simp only [valueText, List.append_assoc] at h
  have hheader := List.append_cancel_left (List.append_cancel_left h)
  obtain ⟨hflags, hlen, hid, hrest⟩ := headerText_inj hheader
  exact ⟨List.append_inj_left hrest hlen, hflags, hid⟩

/-- The text of a block tells whether it was stored. -/
theorem storeAnswer_inj {cmd : Nread} {stat stat' : StoreStat} {T : List UInt8}
    (h : World.storeAnswer cmd stat ++ crlf <+: T) (h' : World.storeAnswer cmd stat' ++ crlf <+: T) :
    World.storeAnswer cmd stat = World.storeAnswer cmd stat' ∧ (stat = .STORED ↔ stat' = .STORED) := by
  have hfirst := List.prefix_or_prefix_of_prefix h h'
  unfold World.storeAnswer at hfirst ⊢
  by_cases hs : stat = .STORED <;> by_cases hs' : stat' = .STORED
  · simp [hs, hs']
  · rw [if_pos hs, if_neg hs'] at hfirst
    split at hfirst <;> exact absurd hfirst (by decide)
  · rw [if_neg hs, if_pos hs'] at hfirst
    split at hfirst <;> exact absurd hfirst (by decide)
  · simp [hs, hs']

/-- The requests of a client, and the pieces that bring them. -/
inductive Asks : Option StoreLine → Request → List UInt8 → Option StoreLine → Prop
  | get {l k : List UInt8} (hl : tokensOf l = [bytes "get", k]) : Asks none (.get k) (l ++ crlf) none
  | delete {l k : List UInt8} (hl : tokensOf l = [bytes "delete", k]) : Asks none (.delete k) (l ++ crlf) none
  | line {l : List UInt8} {L : StoreLine} (hcmd : L.cmd ≠ .error) (hl : Announces l L) :
      Asks none (.store L hcmd) (l ++ crlf) (some L)
  | block {L : StoreLine} (block : List UInt8) : Asks (some L) (.block block) block none

theorem Announces.length_ne {l : List UInt8} {L : StoreLine} (h : Announces l L) :
    2 < (tokensOf l).length := by
  rcases h.verb.length with e | e <;> omega

/-- The requests that come in lines. -/
theorem Asks.of_line {l : List UInt8} {req : Request} {o : Option StoreLine}
    (h : Asks none req (l ++ crlf) o) :
    (∃ k, tokensOf l = [bytes "get", k] ∧ req = .get k ∧ o = none) ∨
      (∃ k, tokensOf l = [bytes "delete", k] ∧ req = .delete k ∧ o = none) ∨
      ∃ L hcmd, Announces l L ∧ req = .store L hcmd ∧ o = some L := by
  generalize hchunk : l ++ crlf = chunk at h
  cases h with
  | @get l' k hl =>
    obtain rfl := List.append_cancel_right hchunk
    exact .inl ⟨k, hl, rfl, rfl⟩
  | @delete l' k hl =>
    obtain rfl := List.append_cancel_right hchunk
    exact .inr (.inl ⟨k, hl, rfl, rfl⟩)
  | @line l' L hcmd hl =>
    obtain rfl := List.append_cancel_right hchunk
    exact .inr (.inr ⟨L, hcmd, hl, rfl, rfl⟩)

theorem get_ne_delete {k k' : List UInt8} {tokens : List (List UInt8)} (h : tokens = [bytes "get", k])
    (h' : tokens = [bytes "delete", k']) : False := by
  rw [h] at h'
  exact absurd (List.cons.inj h').1 (by decide)

theorem Announces.ne_two {l t k : List UInt8} {L : StoreLine} (h : Announces l L) : tokensOf l ≠ [t, k] := by
  intro hl
  have hlen := h.length_ne
  rw [hl] at hlen
  exact absurd hlen (by simp)

/-- A line brings one request. -/
theorem Asks.unique_line {l : List UInt8} {req req' : Request} {o o' : Option StoreLine}
    (h : Asks none req (l ++ crlf) o) (h' : Asks none req' (l ++ crlf) o') : req = req' ∧ o = o' := by
  rcases h.of_line with ⟨k, hl, rfl, rfl⟩ | ⟨k, hl, rfl, rfl⟩ | ⟨L, hcmd, hl, rfl, rfl⟩ <;>
    rcases h'.of_line with ⟨k', hl', rfl, rfl⟩ | ⟨k', hl', rfl, rfl⟩ | ⟨L', hcmd', hl', rfl, rfl⟩
  · rw [hl] at hl'
    cases hl'
    exact ⟨rfl, rfl⟩
  · exact (get_ne_delete hl hl').elim
  · exact absurd hl hl'.ne_two
  · exact (get_ne_delete hl' hl).elim
  · rw [hl] at hl'
    cases hl'
    exact ⟨rfl, rfl⟩
  · exact absurd hl hl'.ne_two
  · exact absurd hl' hl.ne_two
  · exact absurd hl' hl.ne_two
  · cases hl.fields.symm.trans hl'.fields
    exact ⟨rfl, rfl⟩

/-- A piece brings one request. -/
theorem Asks.unique {o o₁ o₁' : Option StoreLine} {req req' : Request} {chunk : List UInt8}
    (h : Asks o req chunk o₁) (h' : Asks o req' chunk o₁') : req = req' ∧ o₁ = o₁' := by
  cases h with
  | get hl => exact Asks.unique_line (.get hl) h'
  | delete hl => exact Asks.unique_line (.delete hl) h'
  | line hcmd hl => exact Asks.unique_line (.line hcmd hl) h'
  | block block =>
    cases h' with
    | block => exact ⟨rfl, rfl⟩

theorem Exchange.asks {o o₁ : Option StoreLine} {req : Request} {r : Answer} {chunk text : List UInt8}
    (h : Exchange o req r chunk text o₁) : Asks o req chunk o₁ := by
  cases h with
  | hit hl => exact .get hl
  | miss hl => exact .get hl
  | deleted hl => exact .delete hl
  | notFound hl => exact .delete hl
  | line hcmd hl => exact .line hcmd hl
  | block => exact .block _

/-- The lines that do not touch the cache. -/
theorem Aside.of_line {l text : List UInt8} (h : Aside (l ++ crlf) text) :
    (tokensOf l = [bytes "version"] ∧ text = bytes "CGXR MEMCACHE version 1.0" ++ crlf) ∨
      ((tokensOf l ≠ [bytes "version"] ∧
          ∀ k, tokensOf l ≠ [bytes "get", k] ∧ tokensOf l ≠ [bytes "delete", k]) ∧
        (tokensOf l).length ≤ 2 ∧ text = BAD_COMMAND ++ crlf) := by
  generalize hchunk : l ++ crlf = chunk at h
  cases h with
  | @version l' hl =>
    obtain rfl := List.append_cancel_right hchunk
    exact .inl ⟨hl, rfl⟩
  | @word l' t hl hquit hversion =>
    obtain rfl := List.append_cancel_right hchunk
    refine .inr ⟨⟨?_, fun k => ⟨?_, ?_⟩⟩, ?_, rfl⟩ <;> rw [hl] <;> simp [hversion]
  | @verb l' t k hl hget hdelete =>
    obtain rfl := List.append_cancel_right hchunk
    refine .inr ⟨⟨?_, fun k' => ⟨?_, ?_⟩⟩, ?_, rfl⟩ <;> rw [hl] <;> simp [hget, hdelete]

/-- A line that asks for nothing brings no request. -/
theorem Aside.not_asks {o : Option StoreLine} {req : Request} {chunk text : List UInt8} (h : Aside chunk text)
    (h' : Asks none req chunk o) : False := by
  obtain ⟨l, rfl⟩ : ∃ l, chunk = l ++ crlf := by cases h <;> exact ⟨_, rfl⟩
  have hshort : (tokensOf l).length ≤ 2 ∧ ∀ k, tokensOf l ≠ [bytes "get", k] ∧
    tokensOf l ≠ [bytes "delete", k] := by
    rcases h.of_line with ⟨hl, -⟩ | ⟨⟨-, hne⟩, hlen, -⟩
    · rw [hl]
      simp
    · exact ⟨hlen, hne⟩
  rcases h'.of_line with ⟨k, hl, -⟩ | ⟨k, hl, -⟩ | ⟨L, hcmd, hl, -⟩
  · exact (hshort.2 k).1 hl
  · exact (hshort.2 k).2 hl
  · have hlen := hl.length_ne
    omega

theorem Aside.unique {chunk text text' : List UInt8} (h : Aside chunk text)
    (h' : Aside chunk text') : text = text' := by
  obtain ⟨l, rfl⟩ : ∃ l, chunk = l ++ crlf := by cases h <;> exact ⟨_, rfl⟩
  rcases h.of_line with ⟨hl, rfl⟩ | ⟨⟨hne, -⟩, -, rfl⟩ <;>
    rcases h'.of_line with ⟨hl', rfl⟩ | ⟨⟨hne', -⟩, -, rfl⟩
  · rfl
  · exact absurd hl hne'
  · exact absurd hl' hne
  · rfl

theorem not_value_end {k v text T : List UInt8} {f : UInt8} {id : UInt64}
    (htext : valueText k f v id <+: text)
    (hT : text <+: T) (hT' : bytes "END" ++ crlf <+: T) : False := by
  have hvalue : bytes "VALUE " <+: valueText k f v id := by
    simp only [valueText, List.append_assoc]
    exact List.prefix_append _ _
  rcases List.prefix_or_prefix_of_prefix ((hvalue.trans htext).trans hT) hT' with h | h <;>
    exact absurd h (by decide)

/-- A request and what was read after it leave one answer. -/
theorem Exchange.unique {o o₁ o₁' : Option StoreLine} {req : Request} {r r' : Answer}
    {chunk text text' T : List UInt8} (h : Exchange o req r chunk text o₁)
    (h' : Exchange o req r' chunk text' o₁')
    (hT : text <+: T) (hT' : text' <+: T) : r.said = r'.said ∧ text = text' := by
  cases h with
  | @hit l k v text flag id hl htext hlen =>
    generalize l ++ crlf = chunk at h'
    cases h' with
    | hit _ htext' hlen' =>
      obtain rfl : text = text' :=
        List.IsPrefix.eq_of_length (List.prefix_of_prefix_length_le hT hT' (by omega)) (by omega)
      obtain ⟨x, hx⟩ := htext
      obtain ⟨y, hy⟩ := htext'
      obtain ⟨rfl, rfl, rfl⟩ := valueText_inj (hx.trans hy.symm)
      exact ⟨rfl, rfl⟩
    | miss => exact (not_value_end htext hT hT').elim
  | @miss l k hl =>
    generalize l ++ crlf = chunk at h'
    cases h' with
    | hit _ htext' hlen' => exact (not_value_end htext' hT' hT).elim
    | miss => exact ⟨rfl, rfl⟩
  | @deleted l k hl =>
    generalize l ++ crlf = chunk at h'
    cases h' with
    | deleted => exact ⟨rfl, rfl⟩
    | notFound => exact absurd (List.prefix_or_prefix_of_prefix hT hT') (by decide)
  | @notFound l k hl =>
    generalize l ++ crlf = chunk at h'
    cases h' with
    | deleted => exact absurd (List.prefix_or_prefix_of_prefix hT hT') (by decide)
    | notFound => exact ⟨rfl, rfl⟩
  | @line l L hcmd hl =>
    generalize l ++ crlf = chunk at h'
    cases h' with
    | line => exact ⟨rfl, rfl⟩
  | block hlen stat =>
    cases h' with
    | block hlen' stat' =>
      obtain ⟨htext, hstat⟩ := storeAnswer_inj hT hT'
      refine ⟨?_, congrArg (· ++ crlf) htext⟩
      unfold Answer.said
      simp only [hstat]

/-! ### A conversation -/

/-- The pieces that were sent and the bytes that were read leave one conversation. -/
theorem Conversation.unique {xs xs' : List (Action × Answer)} {heard : List (List UInt8)}
    {out out' T : List UInt8}
    {o o' : Option StoreLine} (h : Conversation xs heard out o) (h' : Conversation xs' heard out' o')
    (hT : out <+: T) (hT' : out' <+: T) :
    (xs.map fun x => (x.1.req, x.2.said)) = (xs'.map fun x => (x.1.req, x.2.said)) ∧ out = out' ∧ o = o' := by
  induction h generalizing xs' out' o' with
  | nil =>
    generalize hheard : [] = heard at h'
    cases h' with
    | nil => exact ⟨rfl, rfl, rfl⟩
    | aside => simp at hheard
    | request => simp at hheard
  | @aside xs heard out chunk text h haside ih =>
    generalize hheard : heard ++ [chunk] = heard' at h'
    have hout := (List.prefix_append out text).trans hT
    cases h' with
    | nil => simp at hheard
    | @aside _ heard' out' chunk' text' h' haside' =>
      obtain ⟨rfl, hchunk⟩ := List.append_inj' hheard rfl
      cases hchunk
      obtain ⟨hxs, rfl, -⟩ := ih h' hout ((List.prefix_append out' text').trans hT')
      exact ⟨hxs, by rw [haside.unique haside'], rfl⟩
    | @request _ heard' out' chunk' text' o₁ o₁' a r h' hexch =>
      obtain ⟨rfl, hchunk⟩ := List.append_inj' hheard rfl
      cases hchunk
      obtain ⟨-, -, rfl⟩ := ih h' hout ((List.prefix_append out' text').trans hT')
      exact (haside.not_asks hexch.asks).elim
  | @request xs heard out chunk text o o₁ a r h hexch ih =>
    generalize hheard : heard ++ [chunk] = heard' at h'
    have hout := (List.prefix_append out text).trans hT
    cases h' with
    | nil => simp at hheard
    | @aside _ heard' out' chunk' text' h' haside' =>
      obtain ⟨rfl, hchunk⟩ := List.append_inj' hheard rfl
      cases hchunk
      obtain ⟨-, -, rfl⟩ := ih h' hout ((List.prefix_append out' text').trans hT')
      exact (haside'.not_asks hexch.asks).elim
    | @request _ heard' out' chunk' text' o' o₁' a' r' h' hexch' =>
      obtain ⟨rfl, hchunk⟩ := List.append_inj' hheard rfl
      cases hchunk
      obtain ⟨hxs, rfl, rfl⟩ := ih h' hout ((List.prefix_append out' text').trans hT')
      obtain ⟨hreq, rfl⟩ := hexch.asks.unique hexch'.asks
      rw [← hreq] at hexch'
      -- what follows the common beginning
      obtain ⟨z, rfl⟩ := hout
      obtain ⟨hsaid, rfl⟩ := hexch.unique hexch' ((List.prefix_append_right_inj out).mp hT)
        ((List.prefix_append_right_inj out).mp hT')
      refine ⟨?_, rfl, rfl⟩
      rw [List.map_append, List.map_append, hxs, List.map_singleton, List.map_singleton, hreq, hsaid]

/-- The beginning of a conversation. -/
theorem Conversation.take {xs : List (Action × Answer)} {heard heard' : List (List UInt8)} {out : List UInt8}
    {o : Option StoreLine} (h : Conversation xs heard out o) (hle : heard' <+: heard) :
    ∃ xs' out' o', Conversation xs' heard' out' o' ∧ xs' <+: xs ∧ out' <+: out := by
  induction h with
  | nil =>
    rw [List.prefix_nil.mp hle]
    exact ⟨[], [], none, .nil, List.prefix_rfl, List.prefix_rfl⟩
  | @aside xs heard out chunk text h haside ih =>
    rcases List.prefix_concat_iff.mp hle with rfl | hle
    · exact ⟨_, _, _, .aside h haside, List.prefix_rfl, List.prefix_rfl⟩
    · obtain ⟨xs', out', o', h', hxs, hout⟩ := ih hle
      exact ⟨xs', out', o', h', hxs, hout.trans (List.prefix_append _ _)⟩
  | @request xs heard out chunk text o o₁ a r h hexch ih =>
    rcases List.prefix_concat_iff.mp hle with rfl | hle
    · exact ⟨_, _, _, .request h hexch, List.prefix_rfl, List.prefix_rfl⟩
    · obtain ⟨xs', out', o', h', hxs, hout⟩ := ih hle
      exact ⟨xs', out', o', h', hxs.trans (List.prefix_append _ _), hout.trans (List.prefix_append _ _)⟩

namespace Server

variable {V : Server} {as : List Stir} {xs ys : List (Action × Answer)} {i : ℕ}

/-- The machine waits and has worked on everything that was brought. -/
def Quiet (V : Server) (i : ℕ) : Prop :=
  ((V.conn i).world.conn.state = .connRead ∨ (V.conn i).world.conn.state = .connNread) ∧
    arrivals (V.conn i).world.reads = []

/-- What a client makes of the bytes that it has read is what its requests were answered. -/
theorem Client.reading {o : Option StoreLine} {p : Option Pending} {heard : List (List UInt8)}
    {out : List UInt8}
    (h : Client V i as xs p) (hreading : Conversation ys heard out o) (hheard : heard <+: brought i as)
    (hdone : heard.length < (brought i as).length ∨ V.Quiet i) (hout : out <+: (V.conn i).world.sent) :
    (ys.map fun x => (x.1.req, x.2.said)) <+:
    (xs.filter (·.1.conn = i)).map fun x => (x.1.req, x.2.said) := by
  obtain ⟨heard₁, coming, out₁, left, htalk, hphase, hbrought, hone, hsent⟩ := h.talk
  have hle : heard <+: heard₁ := by
    apply List.prefix_of_prefix_length_le hheard ⟨coming, hbrought.symm⟩
    rcases hdone with hlt | ⟨hstate, hnone⟩
    · rw [hbrought, List.length_append] at hlt
      omega
    · obtain rfl : coming = [] := by
        cases hphase with
        | idle => exact hnone
        | awaiting => exact hnone
        | loaded _ hs => rcases hstate with e | e <;> cases hs.symm.trans e
        | writing hs => rfl
        | closed hs => rcases hstate with e | e <;> cases hs.symm.trans e
      rw [List.append_nil] at hbrought
      exact hbrought ▸ hheard.length_le
  obtain ⟨xs', out', o₁, hbegin, hxs, hout'⟩ := htalk.take hle
  have hread : out <+: out₁ := hout.trans ⟨left, hsent⟩
  obtain ⟨hsame, -, -⟩ := hreading.unique hbegin hread hout'
  rw [hsame]
  exact hxs.map _

/-- In every run of the server whose clients wait for their turn, whatever a client makes
of the bytes that it has read so far, as answers to the pieces that it has sent but for
the last, or to all of them when its connection has come to rest, is what the requests of
its connection were answered. -/
theorem readings_agree {limit : ℕ} {set : Settings} {mallocOk : ℕ → Bool} {hashpower : ℕ} {s₀ : Cache}
    (hinit : Cache.init limit set mallocOk hashpower = some s₀) (w : ℕ → World) (hopened : ∀ i, (w i).Opened)
    (hpolite : EachStep step Polite (start s₀ w) as) (hrun : run step (start s₀ w) as = .ok V) :
    ∃ xs st, Path Service.Talk (Service.start s₀) xs st ∧ ∀ i ys heard out o, Conversation ys heard out o →
      heard <+: brought i as → (heard.length < (brought i as).length ∨ V.Quiet i) →
      out <+: (V.conn i).world.sent →
      (ys.map fun x => (x.1.req, x.2.said)) <+:
      (xs.filter (·.1.conn = i)).map fun x => (x.1.req, x.2.said) := by
  obtain ⟨xs, st, htalk, htracks⟩ := follows.run (tracks_start hinit hopened) hpolite hrun
  exact ⟨xs, st, htalk, fun i ys heard out o => (htracks.client i).reading⟩

/-- The client of the second connection takes what it reads for the value. -/
theorem readings_agree_setThenAsk : ∃ s₀ V xs, ∃ st : Service,
    Cache.init 1 Service.smallSettings (fun _ => true) 0 = some s₀ ∧
    run step (start s₀ fun _ => Serving.fresh s₀) setThenAsk = .ok V ∧
    Path Service.Talk (Service.start s₀) xs st ∧
    [(Request.get [97], Answer.value [120, 13, 10] 9 1)] <+:
      (xs.filter (·.1.conn = 1)).map fun x => (x.1.req, x.2.said) := by
  have htrial : (Cache.init 1 Service.smallSettings (fun _ => true) 0).any (fun s =>
      decide (EachStep step Polite (start s fun _ => Serving.fresh s) setThenAsk) &&
      (run step (start s fun _ => Serving.fresh s) setThenAsk).toOption.any fun V =>
        decide ((V.conn 1).world.conn.state = .connRead ∧ arrivals (V.conn 1).world.reads = [] ∧
          valueText [97] 9 [120, 13, 10] 1 <+: (V.conn 1).world.sent ∧
          (V.conn 1).world.sent.length = WRITEBUF_LEN)) = true := by
    decide +kernel
  obtain ⟨s₀, hinit, hs⟩ := Service.exists_init htrial
  obtain ⟨hpolite, hs⟩ := (Bool.and_eq_true_iff ..).mp hs
  obtain ⟨V, hV, hsent⟩ := (Option.any_eq_true _ _).mp hs
  obtain ⟨hstate, hnone, htext, hlen⟩ := of_decide_eq_true hsent
  have hrun := Result.eq_ok_of_toOption hV
  obtain ⟨xs, st, htalk, hreads⟩ := readings_agree hinit (fun _ => Serving.fresh s₀)
    (fun _ => ⟨⟨false, false, false, _, 0, length_zeros _, rfl⟩, rfl, rfl⟩) (of_decide_eq_true hpolite) hrun
  have hline : tokensOf (bytes "get a") = [bytes "get", [97]] := by decide +kernel
  have hbrought : brought 1 setThenAsk = [bytes "get a" ++ crlf] := by decide +kernel
  refine ⟨s₀, V, xs, st, hinit, hrun, htalk, ?_⟩
  exact hreads 1 [(⟨0, 1, .get [97]⟩, .value [120, 13, 10] 9 1)] _ _ none
    (.request .nil (.hit hline htext hlen)) (by rw [hbrought]; exact List.prefix_rfl)
      (.inr ⟨.inl hstate, hnone⟩)
    List.prefix_rfl

end Server

end MiniMemcached
