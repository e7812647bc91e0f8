import MiniMemcached.Protocol.Server
import MiniMemcached.Protocol.Words

/-! The grammar of the commands. The handlers are chosen by the number of tokens, and
the verb of a storage line is kept as a code that is not looked at before its data
has come. So a line of three fields, or of a number that no command has, gets no
answer, and a line of five or six fields waits for data whatever its verb is. -/

namespace MiniMemcached

open Memory Runs

/-- The verbs of a storage line of five fields. -/
def STORE_VERBS : List (List UInt8) := ["set", "add", "replace", "append", "prepend"].map bytes

/-- The verb of a storage line fits the number of its fields. -/
def VerbFits (tokens : List (List UInt8)) : Prop :=
  tokens.length = 5 ∧ tokens.getD 0 [] ∈ STORE_VERBS ∨ tokens.length = 6 ∧ tokens.getD 0 [] = bytes "cas"

instance (tokens : List (List UInt8)) : Decidable (VerbFits tokens) := by
  unfold VerbFits
  infer_instance

/-- A storage line as the protocol has it. -/
structure StorageForm (tokens : List (List UInt8)) : Prop where
  verb : VerbFits tokens
  key : (tokens.getD 1 []).length ≤ KEY_MAX_LENGTH
  flags : (safeStrtoul (tokens.getD 2 [])).isSome
  exptime : (safeStrtol (tokens.getD 3 [])).isSome
  vlen : (safeStrtol (tokens.getD 4 [])).isSome
  cas : tokens.length = 6 → (safeStrtoull (tokens.getD 5 [])).isSome

/-- The texts that the handlers answer with. -/
def ANSWERS : List (List UInt8) :=
  ["CGXR MEMCACHE version 1.0", "CLIENT_BAD_COMMAND", "DELETED", "NOT_FOUND", "END",
    "CLIENT_ERROR bad command line format", "SERVER_ERROR out of memory storing object",
    "SERVER_ERROR object too large for cache", "SERVER_ERROR output line too long"].map bytes

/-- An answer stands in `wbuf` and nothing of it was sent: a line, or an item. -/
inductive Conn.Queued (c : Conn) (m : Items) : Prop
  | line (text : List UInt8) (htext : text ∈ ANSWERS) (hnow : c.wbufNow = some 0)
      (hwlen : c.wbufWlen = 0) (hlen : c.wbufLen = text.length + 2) (hbuf : text ++ crlf <+: c.wbuf)
  | value (it : Ptr) (hnow : c.wbufNow = some 0) (hwlen : c.wbufWlen = 0)
      (hbuf : getResponse m it <+: c.wbuf)

namespace World

/-- What a line may come to. -/
inductive Outcome (w : World) (tokens : List (List UInt8)) (w' : World) : Prop
  | storage (L : StoreLine) (s : Cache) (it : Ptr) (hform : StorageForm tokens)
      (halloc : w.cache.allocLine L = .ok (s, some it)) (hitem : w'.conn.item = some it)
      (hstate : w'.conn.state = .connNread)
  | answered (hstate : w'.conn.state = .connWrite) (hqueued : w'.conn.Queued w'.cache.items)
  | closed (hstate : w'.conn.state = .connClosed) (htokens : tokens = [bytes "quit"])
  | nothing (hstate : w'.conn.state = .connRead) (htokens : tokens = [])

/-- The handler comes to its end with such an outcome. -/
def Grammatical (w : World) (tokens : List (List UInt8)) : Prop :=
  ∃ w', w.dispatch tokens = .ok w' ∧ Outcome w tokens w'

/-- A storage line of this form is answered with an error. -/
def Refused (w : World) (tokens : List (List UInt8)) : Prop :=
  ∀ L, parseStoreLine tokens (decide (tokens.length = 6)) = some L →
    ¬w.cache.slab.allocOk L.key.length L.vlen

/-- The answer to a `get` fits into `wbuf`, by the count of the handler and in fact. -/
def AnswerFits (w : World) (tokens : List (List UInt8)) : Prop :=
  tokens.getD 0 [] = bytes "get" → (tokens.getD 1 []).length ≤ KEY_MAX_LENGTH →
    ∀ p, w.cache.live (tokens.getD 1 []) p →
      12 + (w.cache.items.nkey p).toNat + w.cache.items.nbytes p ≤ w.conn.wbufLen ∧
        16 + (w.cache.items.nkey p).toNat + w.cache.items.nbytes p +
          headerDigits (w.cache.fetched p).items p ≤ w.conn.wbuf.length

/-- The condition on the line and the state before it. -/
def Proper (w : World) (tokens : List (List UInt8)) : Prop :=
  match tokens.length with
  | 0 | 1 => True
  | 2 => w.AnswerFits tokens
  | 5 | 6 => VerbFits tokens ∨ w.Refused tokens
  | _ => False

end World

theorem Conn.outLine_mem {c : Conn} {text : List UInt8} (h : text ∈ ANSWERS) : c.outLine text ∈ ANSWERS := by
  unfold Conn.outLine
  split
  · simp [ANSWERS]
  · exact h

theorem Conn.Queued.congr {c c' : Conn} {m : Items} (h : c.Queued m) (hbuf : c'.wbuf = c.wbuf)
    (hnow : c'.wbufNow = c.wbufNow) (hlen : c'.wbufLen = c.wbufLen) (hwlen : c'.wbufWlen = c.wbufWlen) :
    c'.Queued m := by
  cases h with
  | line text htext hn hw hl hb =>
    exact .line text htext (hnow.trans hn) (hwlen.trans hw) (hlen.trans hl) (hbuf ▸ hb)
  | value it hn hw hb => exact .value it (hnow.trans hn) (hwlen.trans hw) (hbuf ▸ hb)

/-- A text of the handlers is queued. -/
theorem Conn.Rested.queued {c : Conn} (h : c.Rested) {text : List UInt8} (htext : text ∈ ANSWERS)
    (m : Items) :
    (c.queue (c.outLine text)).Queued m := by
  refine .line (c.outLine text) (outLine_mem htext) rfl h.wlen rfl ?_
  show _ <+: put c.wbuf 0 (c.outLine text ++ crlf)
  rw [put_front]
  exact List.prefix_append _ _

namespace World

variable {w : World} {tokens : List (List UInt8)}

/-- The line is answered. -/
def Replies (w' : World) : Prop := w'.conn.state = .connWrite ∧ w'.conn.Queued w'.cache.items

theorem answer_replies (hw : w.conn.Rested) (text : List UInt8) (htext : text ∈ ANSWERS) :
    ∃ w', w.answer text = .ok w' ∧ w'.Replies := by
  have hcleared : w.conn.clearRbuf.startWrite.Rested := hw.congr rfl rfl rfl rfl
  exact ⟨_, answer_eq_ok.mpr ⟨(hw.outLine_le text).trans hw.room, rfl⟩, rfl, hcleared.queued htext _⟩

theorem outString_replies (hw : w.conn.Rested) (text : List UInt8) (htext : text ∈ ANSWERS) :
    ∃ w', w.outString text = .ok w' ∧ w'.Replies :=
  ⟨_, outString_eq_ok.mpr ⟨(hw.outLine_le text).trans hw.room, rfl⟩, rfl, hw.queued htext _⟩

theorem commandOnePara_outcome (hw : w.conn.Rested) (hlen : tokens.length = 1) :
    ∃ w', w.commandOnePara tokens = .ok w' ∧ Outcome w tokens w' := by
  unfold commandOnePara
  split
  · rename_i hquit
    obtain ⟨token, rfl⟩ := List.length_eq_one_iff.mp hlen
    exact ⟨_, rfl, .closed rfl (congrArg (fun t => [t]) hquit)⟩
  · split
    · obtain ⟨w', heq, hstate, hqueued⟩ :=
        answer_replies hw (bytes "CGXR MEMCACHE version 1.0") (by simp [ANSWERS])
      exact ⟨w', heq, .answered hstate hqueued⟩
    · obtain ⟨w', heq, hstate, hqueued⟩ := answer_replies hw BAD_COMMAND (by simp [ANSWERS, BAD_COMMAND])
      exact ⟨w', heq, .answered hstate hqueued⟩

theorem deleteCommand_outcome {g : Shape} (h : Sound w.cache g) (hw : w.conn.Rested) :
    ∃ w', w.deleteCommand tokens = .ok w' ∧ Outcome w tokens w' := by
  obtain ⟨s₁, g₁, acts, o, hget, -⟩ := Steps.itemGet h (tokens.getD 1 [])
  obtain ⟨s₂, g₂, acts₂, b, hrem, -⟩ := Steps.removeKey h (tokens.getD 1 [])
  unfold Cache.removeKey at hrem
  rw [hget, Result.ok_bind] at hrem
  unfold deleteCommand
  rw [hget]
  cases o with
  | none =>
    obtain ⟨w', heq, hstate, hqueued⟩ :=
      answer_replies (w := { w with cache := s₁ }) hw (bytes "NOT_FOUND") (by simp [ANSWERS])
    exact ⟨w', heq, .answered hstate hqueued⟩
  | some it =>
    obtain ⟨s₃, hunlink, -⟩ := Result.bind_eq_ok.mp hrem
    obtain ⟨w', heq, hstate, hqueued⟩ :=
      answer_replies (w := { w with cache := s₃.itemRemove it }) hw (bytes "DELETED") (by simp [ANSWERS])
    refine ⟨w', ?_, .answered hstate hqueued⟩
    simp only [Result.ok_bind, hunlink, heq]

/-- What the lookup of a live item leaves for the formatter. -/
theorem found_of_live {g : Shape} (h : Sound w.cache g) (hsized : Sized w.cache g)
    (hclean : ∀ b ∈ tokens.getD 1 [], b ≠ 0 ∧ isSeparator b = false)
    (hshort : (tokens.getD 1 []).length ≤ KEY_MAX_LENGTH) {s : Cache} {it : Ptr}
    (hitem : w.cache.itemGet (tokens.getD 1 []) = .ok (s, some it)) :
    Found w tokens s it ∧ s.items.nkey it = w.cache.items.nkey it ∧
      s.items.nbytes it = w.cache.items.nbytes it ∧
      headerDigits s.items it = headerDigits (w.cache.fetched it).items it := by
  obtain ⟨s', g', acts, o, hitem', -, hacts, -, hlive⟩ := Steps.itemGet h (tokens.getD 1 [])
  cases hitem.symm.trans hitem'
  obtain ⟨rfl, -⟩ := hlive it rfl
  cases hacts with
  | live _ hp hk hl =>
    obtain ⟨hge, id, hid, hroom⟩ := hsized.fits it (.inl (h.linked it hp).1)
    have hsmall := hsized.small id
    refine ⟨⟨hshort, hclean, hitem, ?_, ?_⟩, rfl, rfl, rfl⟩
    · show 0 ≤ w.cache.items.nbytes it
      omega
    · show sizeofBaseItem + (w.cache.items.nkey it).toNat + 1 + w.cache.items.nbytes it < 2 ^ 31
      omega

/-- A `get` is answered just when its answer fits. -/
theorem getCommand_outcome_iff {g : Shape} (h : Sound w.cache g) (hsized : Sized w.cache g)
    (hw : w.conn.Rested) (hclean : ∀ b ∈ tokens.getD 1 [], b ≠ 0 ∧ isSeparator b = false)
    (hget : tokens.getD 0 [] = bytes "get") :
    (∃ w', w.getCommand tokens = .ok w' ∧ Outcome w tokens w') ↔ w.AnswerFits tokens := by
  by_cases hlong : KEY_MAX_LENGTH < (tokens.getD 1 []).length
  · obtain ⟨w', heq, hstate, hqueued⟩ := outString_replies hw BAD_FORMAT (by simp [ANSWERS, BAD_FORMAT])
    unfold getCommand
    dsimp only
    rw [if_pos hlong]
    exact ⟨fun _ _ hle => absurd hle (by omega), fun _ => ⟨w', heq, .answered hstate hqueued⟩⟩
  · obtain ⟨s, g', acts, o, hitem, -, hacts, -⟩ := Steps.itemGet h (tokens.getD 1 [])
    have hlive := hacts.live_iff h
    cases o with
    | none =>
      obtain ⟨w', heq, hstate, hqueued⟩ :=
        answer_replies (w := { w with cache := s }) hw (bytes "END") (by simp [ANSWERS])
      unfold getCommand
      dsimp only
      rw [if_neg hlong, hitem]
      exact ⟨fun _ _ _ p hp => absurd ((hlive p).mp hp)
        (by simp), fun _ => ⟨w', heq, .answered hstate hqueued⟩⟩
    | some it =>
      obtain ⟨hfound, hnkey, hnbytes, hdigits⟩ := found_of_live h hsized hclean (by omega) hitem
      have hsize := hfound.size
      have hroom : (∃ wbuf, formatValue w.conn.wbuf s.items it = .ok wbuf) ↔
          16 + (w.cache.items.nkey it).toNat + w.cache.items.nbytes it +
            headerDigits (w.cache.fetched it).items it ≤ w.conn.wbuf.length := by
        rw [formatValue_ok_iff hfound.clean, valueAnswer_eq, List.length_append, length_getResponse,
          List.length_singleton, ← hnkey, ← hnbytes, ← hdigits]
        omega
      constructor
      · rintro ⟨w', heq, -⟩ - - p hp
        cases (hlive p).mp hp
        obtain ⟨hcount, wbuf, hfmt, -⟩ := hfound.getCommand_eq_ok.mp heq
        exact ⟨by rw [← hnkey, ← hnbytes]; exact hcount, hroom.mp ⟨wbuf, hfmt⟩⟩
      · intro hfits
        obtain ⟨hcount, hle⟩ := hfits hget (by omega) it ((hlive it).mpr rfl)
        obtain ⟨wbuf, hfmt⟩ := hroom.mpr hle
        refine ⟨_, hfound.getCommand_eq_ok.mpr ⟨by rw [hnkey, hnbytes]; exact hcount, wbuf, hfmt, rfl⟩, ?_⟩
        obtain ⟨hpre, -⟩ := formatValue_spec hfound.clean hfmt
        exact .answered rfl (.value it hw.now hw.wlen ((List.prefix_append _ _).trans hpre))

/-- A storage line that gets no memory is answered. -/
theorem refuseLine_replies {g : Shape} (h : Sound w.cache g) (hw : w.conn.Rested) (L : StoreLine) :
    ∃ w', w.refuseLine L = .ok w' ∧ w'.Replies := by
  obtain ⟨text, htext, hif⟩ : ∃ text ∈ ANSWERS, (if w.cache.itemSizeOk L.key.length L.vlen then
      bytes "SERVER_ERROR out of memory storing object"
      else bytes "SERVER_ERROR object too large for cache") = text := by
    refine ⟨_, ?_, rfl⟩
    split <;> simp [ANSWERS]
  have hout : w.outString text = .ok (w.queued text) :=
    outString_eq_ok.mpr ⟨(hw.outLine_le text).trans hw.room, rfl⟩
  have hreplies : ∀ (s : Cache) (item : Option Ptr), ((w.queued text).setItem s item).Replies :=
    fun s item => ⟨rfl, (hw.queued htext _).congr rfl rfl rfl rfl⟩
  obtain ⟨s₁, g₁, acts, o, hget, -⟩ := Steps.itemGet h L.key
  obtain ⟨s₂, g₂, acts₂, b, hrem, -⟩ := Steps.removeKey h L.key
  unfold Cache.removeKey at hrem
  rw [hget, Result.ok_bind] at hrem
  unfold refuseLine
  rw [hif, hout, Result.ok_bind]
  have hget' : (w.queued text).cache.itemGet L.key = .ok (s₁, o) := hget
  split
  · rw [hget']
    cases o with
    | none => exact ⟨_, rfl, hreplies s₁ none⟩
    | some it =>
      obtain ⟨s₃, hunlink, -⟩ := Result.bind_eq_ok.mp hrem
      rw [Result.ok_bind]
      dsimp only
      rw [hunlink]
      exact ⟨_, rfl, hreplies (s₃.itemRemove it) (some it)⟩
  · exact ⟨_, rfl, hreplies w.cache none⟩

/-- The fields of a line that is accepted. -/
theorem storageForm_of_parse {L : StoreLine} (hverb : VerbFits tokens)
    (h : parseStoreLine tokens (decide (tokens.length = 6)) = some L) : StorageForm tokens := by
  have hkey := key_of_parseStoreLine h
  unfold parseStoreLine at h
  dsimp only at h
  split at h
  · rename_i hflags hexp hvlen hcas
    refine ⟨hverb, hkey ▸ L.key_le, by rw [hflags]; rfl, by rw [hexp]; rfl, by rw [hvlen]; rfl,
      fun hsix => ?_⟩
    rw [hsix] at hcas
    simp only [decide_true, if_true] at hcas
    rw [hcas]
    rfl
  · cases h

theorem commandFiveSixPara_bad {cas : Bool} (hparse : parseStoreLine tokens cas = none) :
    w.commandFiveSixPara tokens cas = (w.withCmd tokens).outString BAD_FORMAT := by
  unfold commandFiveSixPara
  simp only [hparse]
  rfl

theorem commandFiveSixPara_refused {cas : Bool} {L : StoreLine} {s : Cache}
    (hparse : parseStoreLine tokens cas = some L) (halloc : w.cache.allocLine L = .ok (s, none)) :
    w.commandFiveSixPara tokens cas = ({ w.withCmd tokens with cache := s } : World).refuseLine L := by
  unfold commandFiveSixPara
  simp only [hparse, halloc, Result.ok_bind]
  rfl

theorem commandFiveSixPara_accepted {cas : Bool} {L : StoreLine} {s : Cache} {it : Ptr}
    (hparse : parseStoreLine tokens cas = some L) (halloc : w.cache.allocLine L = .ok (s, some it)) :
    w.commandFiveSixPara tokens cas =
      .ok (({ w.withCmd tokens with cache := s } : World).acceptLine it L) := by
  unfold commandFiveSixPara
  simp only [hparse, halloc, Result.ok_bind]
  rfl

/-- A storage line is as the grammar has it just when its verb fits or it is refused. -/
theorem commandFiveSixPara_outcome_iff (tokens : List (List UInt8)) {g : Shape}
    (h : Sound w.cache g) (hw : w.conn.Rested) :
    (∃ w', w.commandFiveSixPara tokens (decide (tokens.length = 6)) = .ok w' ∧ Outcome w tokens w') ↔
      VerbFits tokens ∨ w.Refused tokens := by
  have hcmd : (w.withCmd tokens).conn.Rested := hw.congr rfl rfl rfl rfl
  cases hparse : parseStoreLine tokens (decide (tokens.length = 6)) with
  | none =>
    obtain ⟨w', heq, hstate, hqueued⟩ := outString_replies hcmd BAD_FORMAT (by simp [ANSWERS, BAD_FORMAT])
    have hrefused : w.Refused tokens := by
      intro L hL
      cases hparse.symm.trans hL
    rw [commandFiveSixPara_bad hparse]
    exact ⟨fun _ => .inr hrefused, fun _ => ⟨w', heq, .answered hstate hqueued⟩⟩
  | some L =>
    rcases Steps.allocLine h L with ⟨hno, b, t, halloc, hb, hl, -⟩ | ⟨hok, s, g', it, halloc, -⟩
    · obtain ⟨w', heq, hstate, hqueued⟩ := refuseLine_replies
        (w := { w.withCmd tokens with cache := { w.cache with slab := b, trace := t ++ w.cache.trace } })
        (h.refused hb hl) hcmd L
      have hrefused : w.Refused tokens := by
        intro L' hL'
        cases hparse.symm.trans hL'
        exact hno
      rw [commandFiveSixPara_refused hparse halloc]
      exact ⟨fun _ => .inr hrefused, fun _ => ⟨w', heq, .answered hstate hqueued⟩⟩
    · rw [commandFiveSixPara_accepted hparse halloc]
      constructor
      · rintro ⟨w', heq, hout⟩
        cases heq
        cases hout with
        | storage L' s' it' hform => exact .inl hform.verb
        | answered hstate => cases hstate
        | closed hstate => cases hstate
        | nothing hstate => cases hstate
      · rintro (hverb | hrefused)
        · exact ⟨_, rfl, .storage L s it (storageForm_of_parse hverb hparse) halloc rfl rfl⟩
        · exact absurd hok (hrefused L hparse)

/-- The mark of a line of five fields does not matter. -/
theorem Outcome.mark {w' : World} (h : Outcome w tokens w') (b : Bool) :
    Outcome w tokens { w' with conn := { w'.conn with flagPrecmd := b } } := by
  cases h with
  | storage L s it hform halloc hitem hstate => exact .storage L s it hform halloc hitem hstate
  | answered hstate hqueued => exact .answered hstate (hqueued.congr rfl rfl rfl rfl)
  | closed hstate htokens => exact .closed hstate htokens
  | nothing hstate htokens => exact .nothing hstate htokens

/-- A line that leaves the connection as it was has not come to anything. -/
theorem not_outcome_self (hstate : w.conn.state = .connParseCmd) : ¬Outcome w tokens w := by
  intro hout
  cases hout with
  | storage L s it hform halloc hitem hst => cases hstate.symm.trans hst
  | answered hst => cases hstate.symm.trans hst
  | closed hst => cases hstate.symm.trans hst
  | nothing hst => cases hstate.symm.trans hst

/-- A line of tokens comes to what the grammar says just when it has none, one or two fields
and its answer fits, or is a storage line whose verb fits its fields or that is refused. -/
theorem grammatical_iff (w : World) (tokens : List (List UInt8)) (hreached : w.cache.Reached)
    (hw : w.conn.Rested) (hstate : w.conn.state = .connParseCmd)
    (hclean : ∀ token ∈ tokens, ∀ b ∈ token, b ≠ 0 ∧ isSeparator b = false) :
    w.Grammatical tokens ↔ w.Proper tokens := by
  obtain ⟨g, h, hsized⟩ := hreached.sound
  have hkey : ∀ b ∈ tokens.getD 1 [], b ≠ 0 ∧ isSeparator b = false := by
    intro b hb
    rw [List.getD_eq_getElem?_getD] at hb
    cases htoken : tokens[1]? with
    | none => simp [htoken] at hb
    | some token =>
      rw [htoken, Option.getD_some] at hb
      exact hclean token (List.mem_of_getElem? htoken) b hb
  unfold Grammatical Proper dispatch
  split
  · rename_i hlen
    simpa only [hlen, iff_true] using commandOnePara_outcome hw hlen
  · rename_i hlen
    rw [hlen]
    unfold commandTwoPara
    split
    · rename_i hget
      exact getCommand_outcome_iff h hsized hw hkey hget
    · rename_i hget
      have hfits : w.AnswerFits tokens := fun hg => absurd hg hget
      simp only [hfits, iff_true]
      split
      · exact deleteCommand_outcome h hw
      · obtain ⟨w', heq, hstate, hqueued⟩ := answer_replies hw BAD_COMMAND (by simp [ANSWERS, BAD_COMMAND])
        exact ⟨w', heq, .answered hstate hqueued⟩
  · rename_i hlen
    rw [hlen]
    refine iff_of_false ?_ id
    rintro ⟨w', heq, hout⟩
    cases heq
    exact not_outcome_self hstate hout
  · rename_i hlen
    have hfive := commandFiveSixPara_outcome_iff tokens h hw
    rw [show decide (tokens.length = 6) = false by simp [hlen]] at hfive
    rw [hlen, ← hfive]
    constructor
    · rintro ⟨w', heq, hout⟩
      obtain ⟨w₁, heq₁, heq⟩ := Result.bind_eq_ok.mp heq
      cases heq
      exact ⟨w₁, heq₁, hout.mark w₁.conn.flagPrecmd⟩
    · rintro ⟨w₁, heq₁, hout⟩
      exact ⟨_, Result.bind_eq_ok.mpr ⟨w₁, heq₁, rfl⟩, hout.mark true⟩
  · rename_i hlen
    have hsix := commandFiveSixPara_outcome_iff tokens h hw
    rw [show decide (tokens.length = 6) = true by simp [hlen]] at hsix
    rw [hlen]
    exact hsix
  · rename_i h1 h2 h3 h5 h6
    constructor
    · rintro ⟨w', heq, hout⟩
      cases heq
      cases hout with
      | nothing hst htokens =>
        rw [htokens]
        trivial
      | storage L s it hform halloc hitem hst => cases hst
      | answered hst => cases hst
      | closed hst => cases hst
    · intro hproper
      refine ⟨_, rfl, .nothing rfl ?_⟩
      split at hproper
      · rename_i hlen
        exact List.length_eq_zero_iff.mp hlen
      · rename_i hlen
        exact absurd hlen h1
      · rename_i hlen
        exact absurd hlen h2
      · rename_i hlen
        exact absurd hlen h5
      · rename_i hlen
        exact absurd hlen h6
      · cases hproper

theorem grammatical_setLine : ∃ s, Cache.init 1 Service.smallSettings (fun _ => true) 0 = some s ∧
    ((Serving.fresh s).setState .connParseCmd).Grammatical [bytes "version"] ∧
    ((Serving.fresh s).setState .connParseCmd).Grammatical [bytes "set", [97], [48], [48], [49]] := by
  obtain ⟨s, hinit⟩ := Serving.init_small
  have hrested : ((Serving.fresh s).setState .connParseCmd).conn.Rested :=
    ⟨rfl, rfl, show (0 : ℤ) < WRITEBUF_LEN by decide, le_rfl, (length_zeros _).ge⟩
  have hproper : VerbFits [bytes "set", [97], [48], [48], [49]] := by decide +kernel
  exact ⟨s, hinit,
    (grammatical_iff _ _ (Cache.reached_init hinit) hrested rfl (by decide +kernel)).mpr trivial,
    (grammatical_iff _ _ (Cache.reached_init hinit) hrested rfl (by decide +kernel)).mpr (.inl hproper)⟩

end World

namespace Serving

/-- A line of three fields has no answer: the connection stays where it parses. -/
theorem not_grammatical_incr : ∃ s t, Cache.init 1 Service.smallSettings (fun _ => true) 0 = some s ∧
    run step (start (fresh s)) [.event .read [.data (bytes "incr a 1\r\n")] [], .turn] = .ok t ∧
    t.world.conn.state = .connParseCmd ∧ t.world.tokensAt 9 = [bytes "incr", [97], [49]] ∧
    ¬(t.world.logged 9 [0]).Grammatical (t.world.tokensAt 9) := by
  have htrial : (trial [.event .read [.data (bytes "incr a 1\r\n")] [], .turn]).any (fun t =>
      decide (t.world.conn.state = .connParseCmd ∧
        t.world.tokensAt 9 = [bytes "incr", [97], [49]])) = true := by
    decide +kernel
  obtain ⟨s, t, hinit, hrun, hp⟩ := exists_of_trial htrial
  obtain ⟨hstate, htokens⟩ := of_decide_eq_true hp
  refine ⟨s, t, hinit, hrun, hstate, htokens, ?_⟩
  rw [htokens]
  rintro ⟨w', heq, hout⟩
  cases heq
  exact World.not_outcome_self (w := t.world.logged 9 [0]) hstate hout

end Serving

end MiniMemcached
