import MiniMemcached.Protocol.Sending

/-! Words and tokens. A client sends a list of words with white space around and
between them, and `process_command` cuts the line back into tokens. The class of its
pattern also leaves out the plus sign, so the tokens are the words of the line just
when no word has that character. -/

namespace MiniMemcached

open Memory

/-- A word: some bytes, none of them white space or zero. -/
def IsWord (word : List UInt8) : Prop := word ≠ [] ∧ ∀ b ∈ word, b ≠ 0 ∧ isspace b = false

instance : DecidablePred IsWord := fun word =>
  inferInstanceAs (Decidable (word ≠ [] ∧ ∀ b ∈ word, b ≠ 0 ∧ isspace b = false))

/-- A line of words: each is followed by white space or ends the line, and any white
space may stand in front. -/
inductive Spaced : List (List UInt8) → List UInt8 → Prop
  | empty : Spaced [] []
  | gap {words : List (List UInt8)} {line : List UInt8} (b : UInt8) (hb : isspace b = true)
      (rest : Spaced words line) : Spaced words (b :: line)
  | last {word : List UInt8} (hword : IsWord word) : Spaced [word] word
  | word {word line : List UInt8} {words : List (List UInt8)} (b : UInt8) (hword : IsWord word)
      (hb : isspace b = true) (rest : Spaced words line) : Spaced (word :: words) (word ++ b :: line)

theorem isSeparator_of_isspace {b : UInt8} (h : isspace b = true) : isSeparator b = true := by
  simp [isSeparator, h]

theorem isSeparator_eq_false {word : List UInt8} (hword : IsWord word) (hplus : (43 : UInt8) ∉ word) :
    ∀ b ∈ word, isSeparator b = false := by
  intro b hb
  have hne : b ≠ 43 := fun h => hplus (h ▸ hb)
  simp [isSeparator, (hword.2 b hb).2, hne]

/-- A line of words has no zero in it. -/
theorem Spaced.zero_notMem {words : List (List UInt8)} {line : List UInt8} (h : Spaced words line) :
    (0 : UInt8) ∉ line := by
  induction h with
  | empty => exact List.not_mem_nil
  | gap b hb _ ih =>
    intro hmem
    rcases List.mem_cons.mp hmem with rfl | hmem
    · exact absurd hb (by decide)
    · exact ih hmem
  | last hword => exact fun hmem => (hword.2 0 hmem).1 rfl
  | word b hword hb _ ih =>
    intro hmem
    rcases List.mem_append.mp hmem with hmem | hmem
    · exact (hword.2 0 hmem).1 rfl
    · rcases List.mem_cons.mp hmem with rfl | hmem
      · exact absurd hb (by decide)
      · exact ih hmem

/-- Splitting undoes the spacing when no word has a plus sign. -/
theorem Spaced.tokensOf {words : List (List UInt8)} {line : List UInt8} (h : Spaced words line)
    (hplus : ∀ word ∈ words, (43 : UInt8) ∉ word) : MiniMemcached.tokensOf line = words := by
  induction h with
  | empty => rfl
  | @gap words line b hb _ ih =>
    have hsplit : (b :: line).splitOnP isSeparator = [] :: line.splitOnP isSeparator :=
      List.splitOnP_append_cons_of_forall_mem
        (by simp : ∀ x ∈ ([] : List UInt8), isSeparator x = false) b (isSeparator_of_isspace hb) line
    rw [← ih hplus, MiniMemcached.tokensOf, MiniMemcached.tokensOf, hsplit]
    rfl
  | @last word hword =>
    have hsplit : word.splitOnP isSeparator = [word] :=
      List.splitOnP_eq_singleton (isSeparator_eq_false hword (hplus word List.mem_cons_self))
    rw [MiniMemcached.tokensOf, hsplit, List.filter_singleton]
    simp [hword.1]
  | @word word line words b hword hb _ ih =>
    have hsplit : (word ++ b :: line).splitOnP isSeparator = word :: line.splitOnP isSeparator :=
      List.splitOnP_append_cons_of_forall_mem
        (isSeparator_eq_false hword (hplus word List.mem_cons_self)) b (isSeparator_of_isspace hb) line
    have hwords := ih fun word hmem => hplus word (List.mem_cons_of_mem _ hmem)
    rw [MiniMemcached.tokensOf, hsplit, List.filter_cons_of_pos (by simp [hword.1])]
    exact congrArg _ hwords

theorem key_of_parseStoreLine {tokens : List (List UInt8)} {cas : Bool} {L : StoreLine}
    (h : parseStoreLine tokens cas = some L) : L.key = tokens.getD 1 [] := by
  unfold parseStoreLine at h
  dsimp only at h
  split at h
  · split at h
    · rw [← Option.some.inj h]
    · cases h
  · cases h

namespace World

/-- The line in `rbuf` is run as the list of its words, and a storage line stores
under its second word. -/
structure WordForWord (w : World) (words : List (List UInt8)) : Prop where
  tokens : tokensOf (cstring w.conn.rbuf) = words
  handler : w.processCommand =
    ({ w with deeds := w.deeds ++ [.command words] } : World).dispatch words
  key : ∀ cas L, parseStoreLine (tokensOf (cstring w.conn.rbuf)) cas = some L → L.key = words.getD 1 []

/-- A line is run word for word just when none of its words has a plus sign. -/
theorem wordForWord_iff (w : World) (words : List (List UInt8)) (line rest : List UInt8)
    (hline : Spaced words line) (hbuf : w.conn.rbuf = line ++ 0 :: rest) :
    w.WordForWord words ↔ ∀ word ∈ words, (43 : UInt8) ∉ word := by
  have hstring : cstring w.conn.rbuf = line := by rw [hbuf, cstring_append hline.zero_notMem]
  constructor
  · intro h word hmem hplus
    obtain ⟨i, hi, rfl⟩ := List.mem_iff_getElem.mp hmem
    -- a token has no separator in it, and the plus sign is one
    have hclean : isSeparator 43 = false := by
      refine (@tokensOf_clean w.conn.rbuf i _ ?_).2
      rwa [h.tokens, List.getD_eq_getElem?_getD, List.getElem?_eq_getElem hi, Option.getD_some]
    exact absurd hclean (by decide)
  · intro hplus
    have htokens : tokensOf (cstring w.conn.rbuf) = words := by rw [hstring, hline.tokensOf hplus]
    refine ⟨htokens, ?_, fun cas L hL => ?_⟩
    · rw [processCommand, htokens]
    · rw [key_of_parseStoreLine hL, htokens]

/-- The connection with this line in its read buffer. -/
def withLine (w : World) (line : List UInt8) : World :=
  { w with conn := { w.conn with rbuf := line ++ 0 :: zeros (READBUF_LEN - line.length - 1) } }

/-- A `get` of a key of one letter. -/
def getWords (key : List UInt8) : List (List UInt8) := [bytes "get", key]

theorem spaced_get {key : List UInt8} (hkey : IsWord key) :
    Spaced (getWords key) (bytes "get" ++ 32 :: key) :=
  .word 32 (by decide +kernel) rfl (.last hkey)

theorem wordForWord_get : ∃ s, Cache.init 1 Service.smallSettings (fun _ => true) 0 = some s ∧
    ((Serving.fresh s).withLine (bytes "get" ++ 32 :: [97])).WordForWord (getWords [97]) := by
  obtain ⟨s, hinit⟩ := Serving.init_small
  exact ⟨s, hinit, (wordForWord_iff _ (getWords [97]) _ _ (spaced_get (by decide +kernel)) rfl).mpr
    (by decide +kernel)⟩

/-- The key `a+b` is cut in two. -/
theorem not_wordForWord_plus : ¬∀ (w : World) (words : List (List UInt8)) (line rest : List UInt8),
    Spaced words line → w.conn.rbuf = line ++ 0 :: rest → w.WordForWord words := by
  intro h
  obtain ⟨s, -⟩ := Serving.init_small
  have hline : Spaced (getWords (bytes "a+b")) (bytes "get" ++ 32 :: bytes "a+b") :=
    spaced_get (by decide +kernel)
  have htokens := (h ((Serving.fresh s).withLine _) _ _ _ hline rfl).tokens
  have hthree : (tokensOf (cstring (bytes "get" ++ 32 :: bytes "a+b" ++ 0 :: zeros 2040))).length = 3 := by
    rw [cstring_append (by decide +kernel)]
    decide
  have htwo := congrArg List.length htokens
  simp only [withLine] at htwo
  exact absurd (hthree.symm.trans htwo) (by decide +kernel)

end World

end MiniMemcached
