import Xqemu.Qobject.JsonStreamer
import Xqemu.Lib.ErrorsIn

/-!
# What the JSON message parser guarantees

Two properties of the streamer over all of its input.

The lexer never gets stuck: from every state of the table, every byte leaves the loop of
`json_lexer_feed_char` within three turns, and a flush always ends in the start state.  So
feeding any bytes never fails, and the asserts of `json_lexer_flush` and
`json_message_parser_flush` always hold (`jsonMessageParser_feed_flush_ok`).

The streamer frames messages: handed the tokens of a sequence of messages, each a plain
token or a bracket group in which every bracket is closed by its match, within the limits on
tokens, bytes and nesting, `json_message_process_token` emits exactly one parse for each
message, with exactly its tokens (`processTokens_messages`).
-/

namespace Xqemu.Qobject

open Xqemu.Faults

/-! ## The lexer loop ends -/

/-- A lexer whose state is a row of the table and whose start state is one of the two
start states. -/
structure JsonLexer.WellFormed (l : JsonLexer) : Prop where
  start : l.startState = inStart ∨ l.startState = inStartInterp
  state_lt : l.state < inStartInterp + 1

theorem JsonLexer.WellFormed.start_mem {l : JsonLexer} (hl : l.WellFormed) :
    l.startState ∈ [inStart, inStartInterp] := by
  rcases hl.start with h | h <;> simp [h]

theorem JsonLexer.WellFormed.startState_lt {l : JsonLexer} (hl : l.WellFormed) :
    l.startState < inStartInterp + 1 := by
  rcases hl.start with h | h <;> rw [h] <;> decide

/-- The state one turn of the loop of `json_lexer_feed_char` leaves, and whether it consumed
the byte. -/
def lexTurn (startState state : Nat) (ch : UInt8) (flush : Bool) : Nat × Bool :=
  let next := jsonLexerTable state ch
  let newState := next &&& (lookahead ^^^ 0xFF)
  (if isTokenType newState then startState
    else if newState = inStart then startState
    else if newState = jsonError then inRecovery
    else if newState = inRecovery then inRecovery
    else newState,
   !flush && next &&& lookahead == 0)

/-- The loop of `json_lexer_feed_char` on the lexer state alone. -/
def lexLoop (startState : Nat) (ch : UInt8) (flush : Bool) : Nat → Nat → Bool → Option Nat
  | 0, _, _ => none
  | fuel + 1, state, consumed =>
      if (if flush then state ≠ startState else consumed = false) then
        if state < inStartInterp + 1 then
          lexLoop startState ch flush fuel (lexTurn startState state ch flush).1
            (lexTurn startState state ch flush).2
        else none
      else some state

@[simp] theorem outEmit_lexer (p : JsonMessageParser) (e : JsonEmission) : (outEmit p e).lexer = p.lexer := rfl

@[simp] theorem queueToken_lexer (p : JsonMessageParser) (input : List UInt8) (type x y : Nat) :
    (queueToken p input type x y).lexer = p.lexer := by
  unfold queueToken
  dsimp only
  split_ifs <;> rfl

@[simp] theorem processToken_lexer (p : JsonMessageParser) (input : List UInt8) (type x y : Nat) :
    (jsonMessageProcessToken p input type x y).lexer = p.lexer := by
  unfold jsonMessageProcessToken
  split_ifs <;> simp only [queueToken_lexer, outEmit_lexer]

/-- One turn on a state of the table: the parser changes, but its lexer state moves as
`lexTurn` says and its start state stays. -/
theorem feedCharStep_eq {p : JsonMessageParser} (ch : UInt8) (flush : Bool)
    (hs : p.lexer.state < inStartInterp + 1) :
    ∃ p', feedCharStep p ch flush = .ok (p', (lexTurn p.lexer.startState p.lexer.state ch flush).2) ∧
      p'.lexer.state = (lexTurn p.lexer.startState p.lexer.state ch flush).1 ∧
      p'.lexer.startState = p.lexer.startState := by
  unfold feedCharStep
  rw [if_neg (not_not_intro hs)]
  refine ⟨_, rfl, ?_, ?_⟩ <;> simp only [lexTurn] <;> split_ifs <;> simp

/-- The parser's loop follows the loop on the lexer state. -/
theorem feedCharLoop_of_lexLoop (ch : UInt8) (flush : Bool) :
    ∀ (fuel : Nat) (p : JsonMessageParser) (consumed : Bool) (s : Nat),
      lexLoop p.lexer.startState ch flush fuel p.lexer.state consumed = some s →
      ∃ p', feedCharLoop ch flush fuel p consumed = .ok p' ∧ p'.lexer.state = s ∧
        p'.lexer.startState = p.lexer.startState
  | 0, _, _, _, h => by simp [lexLoop] at h
  | fuel + 1, p, consumed, s, h => by
    unfold lexLoop at h
    unfold feedCharLoop
    by_cases hgo : (if flush then p.lexer.state ≠ p.lexer.startState else consumed = false)
    · rw [if_pos hgo] at h ⊢
      by_cases hs : p.lexer.state < inStartInterp + 1
      · rw [if_pos hs] at h
        obtain ⟨p', hstep, hstate, hstart⟩ := feedCharStep_eq ch flush hs
        rw [← hstate, ← hstart] at h
        obtain ⟨p'', hloop, hstate', hstart'⟩ := feedCharLoop_of_lexLoop ch flush fuel p' _ s h
        rw [hstep, ok_bind]
        exact ⟨p'', hloop, hstate', hstart'.trans hstart⟩
      · rw [if_neg hs] at h
        cases h
    · rw [if_neg hgo] at h ⊢
      cases h
      exact ⟨p, rfl, rfl, rfl⟩

/-- The table, checked: from every state the loop leaves within three turns on every byte,
at a state of the table, and a flush, which feeds the byte 0, ends at the start state. -/
theorem lexLoop_ends :
    ∀ startState ∈ [inStart, inStartInterp], ∀ state < inStartInterp + 1,
      (∀ c < 256, (lexLoop startState c.toUInt8 false 3 state false).isSome ∧
        ∀ s ∈ lexLoop startState c.toUInt8 false 3 state false, s < inStartInterp + 1) ∧
      lexLoop startState 0 true 3 state false = some startState := by
  decide +kernel

/-- The parser with the position of byte `ch` counted, as `json_lexer_feed_char` first does. -/
def JsonMessageParser.advancePos (p : JsonMessageParser) (ch : UInt8) : JsonMessageParser :=
  { p with lexer := { p.lexer with x := if ch = '\n'.toNat.toUInt8 then 0 else p.lexer.x + 1,
                                   y := if ch = '\n'.toNat.toUInt8 then p.lexer.y + 1 else p.lexer.y } }

/-- A byte whose loop on the lexer state ends: `json_lexer_feed_char` returns, at the state
the loop ends in or, after a token grown too long, at the start state. -/
theorem jsonLexerFeedChar_of_lexLoop {p : JsonMessageParser} {ch : UInt8} {flush : Bool} {s : Nat}
    (hloop : lexLoop p.lexer.startState ch flush 3 p.lexer.state false = some s) :
    ∃ p', jsonLexerFeedChar p ch flush = .ok p' ∧ (p'.lexer.state = s ∨ p'.lexer.state = p.lexer.startState) ∧
      p'.lexer.startState = p.lexer.startState := by
  obtain ⟨p₁, h₁, hs₁, hst₁⟩ := feedCharLoop_of_lexLoop ch flush 3 (p.advancePos ch) false s hloop
  simp only [JsonMessageParser.advancePos] at h₁
  unfold jsonLexerFeedChar
  dsimp only
  rw [h₁, ok_bind]
  split_ifs
  · exact ⟨_, rfl, Or.inr (by simp only [processToken_lexer]; exact hst₁), by simp only [processToken_lexer]; exact hst₁⟩
  · exact ⟨p₁, rfl, Or.inl hs₁, hst₁⟩

theorem jsonLexerFeedChar_ok {p : JsonMessageParser} (hp : p.lexer.WellFormed) (ch : UInt8) :
    ∃ p', jsonLexerFeedChar p ch false = .ok p' ∧ p'.lexer.WellFormed ∧ p'.lexer.startState = p.lexer.startState := by
  have hends := (lexLoop_ends _ hp.start_mem _ hp.state_lt).1 ch.toNat ch.toNat_lt
  rw [show ch.toNat.toUInt8 = ch from UInt8.ofNat_toNat] at hends
  obtain ⟨s, hs⟩ := Option.isSome_iff_exists.mp hends.1
  obtain ⟨p', hfeed, hstate, hst⟩ := jsonLexerFeedChar_of_lexLoop hs
  refine ⟨p', hfeed, ⟨hst ▸ hp.start, ?_⟩, hst⟩
  rcases hstate with h | h
  · exact h ▸ hends.2 s hs
  · exact h ▸ hp.startState_lt

theorem jsonLexerFeedChar_flush {p : JsonMessageParser} (hp : p.lexer.WellFormed) :
    ∃ p', jsonLexerFeedChar p 0 true = .ok p' ∧ p'.lexer.state = p.lexer.startState ∧
      p'.lexer.startState = p.lexer.startState := by
  obtain ⟨p', hfeed, hstate, hst⟩ := jsonLexerFeedChar_of_lexLoop (lexLoop_ends _ hp.start_mem _ hp.state_lt).2
  exact ⟨p', hfeed, hstate.elim id id, hst⟩

/-- `json_lexer_feed` on any bytes returns, with the lexer still well formed. -/
theorem jsonLexerFeed_ok : ∀ {p : JsonMessageParser} (buffer : List UInt8), p.lexer.WellFormed →
    ∃ p', jsonLexerFeed p buffer = .ok p' ∧ p'.lexer.WellFormed
  | p, [], hp => ⟨p, rfl, hp⟩
  | p, ch :: buffer, hp => by
    obtain ⟨p₁, h₁, hp₁, -⟩ := jsonLexerFeedChar_ok hp ch
    obtain ⟨p', h', hp'⟩ := jsonLexerFeed_ok buffer hp₁
    refine ⟨p', ?_, hp'⟩
    rw [jsonLexerFeed, List.foldlM_cons, h₁, ok_bind]
    exact h'

/-- `json_message_process_token` for the end of input leaves no token queued. -/
theorem processToken_endOfInput_tokens (p : JsonMessageParser) (input : List UInt8) (x y : Nat) :
    (jsonMessageProcessToken p input jsonEndOfInput x y).tokens = [] := by
  unfold jsonMessageProcessToken
  simp only [show jsonEndOfInput ≠ jsonLcurly by decide, show jsonEndOfInput ≠ jsonRcurly by decide,
    show jsonEndOfInput ≠ jsonLsquare by decide, show jsonEndOfInput ≠ jsonRsquare by decide,
    show jsonEndOfInput ≠ jsonError by decide, if_false, if_true]
  split_ifs with h
  · exact h
  · rfl

/-- Whatever bytes a well-formed parser is fed, `json_message_parser_feed` returns, and the
`json_message_parser_flush` after it passes the assert of `json_lexer_flush` and its own:
the parser ends with no token queued and its lexer at the start state. -/
theorem jsonMessageParser_feed_flush_ok {p : JsonMessageParser} (hp : p.lexer.WellFormed) (buffer : List UInt8) :
    ∃ p₁, jsonMessageParserFeed p buffer = .ok p₁ ∧ p₁.lexer.WellFormed ∧
      ∃ p₂, jsonMessageParserFlush p₁ = .ok p₂ ∧ p₂.lexer.WellFormed ∧ p₂.tokens = [] ∧
        p₂.lexer.state = p₂.lexer.startState := by
  obtain ⟨p₁, h₁, hp₁⟩ := jsonLexerFeed_ok buffer hp
  obtain ⟨p', hflush, hstate, hst⟩ := jsonLexerFeedChar_flush hp₁
  refine ⟨p₁, h₁, hp₁, jsonMessageProcessToken p' p'.lexer.token jsonEndOfInput p'.lexer.x p'.lexer.y, ?_, ?_,
    processToken_endOfInput_tokens _ _ _ _, ?_⟩
  · rw [jsonMessageParserFlush, jsonLexerFlush, hflush, ok_bind, if_neg (by rw [hstate, hst]; exact not_not_intro rfl),
      pure_bind, if_neg (not_not_intro (processToken_endOfInput_tokens _ _ _ _))]
    rfl
  · simp only [processToken_lexer]
    refine ⟨by rw [hst]; exact hp₁.start, ?_⟩
    rw [hstate]
    exact hp₁.startState_lt
  · simp only [processToken_lexer]
    rw [hstate, hst]

theorem jsonMessageParser_feed_flush_init :
    (jsonMessageParserInit false).lexer.WellFormed ∧
      ∃ p₁, jsonMessageParserFeed (jsonMessageParserInit false) [0x5B, 0x31, 0x7D, 0x22] = .ok p₁ ∧
        p₁.lexer.WellFormed ∧ ∃ p₂, jsonMessageParserFlush p₁ = .ok p₂ ∧ p₂.lexer.WellFormed ∧
          p₂.tokens = [] ∧ p₂.lexer.state = p₂.lexer.startState :=
  ⟨⟨Or.inl rfl, by decide⟩, jsonMessageParser_feed_flush_ok ⟨Or.inl rfl, by decide⟩ _⟩

/-! ## Messages -/

/-- A token that `json_message_process_token` queues without moving a count: any type but
the four brackets, `JSON_ERROR` and `JSON_END_OF_INPUT`. -/
def JsonToken.IsPlain (t : JsonToken) : Prop :=
  t.type ≠ jsonLcurly ∧ t.type ≠ jsonRcurly ∧ t.type ≠ jsonLsquare ∧ t.type ≠ jsonRsquare ∧
    t.type ≠ jsonError ∧ t.type ≠ jsonEndOfInput

instance : DecidablePred JsonToken.IsPlain := fun _ => inferInstanceAs (Decidable (_ ∧ _))

/-- An opening bracket and the closing bracket that matches it. -/
def Matching (o c : JsonToken) : Prop :=
  (o.type = jsonLcurly ∧ c.type = jsonRcurly) ∨ (o.type = jsonLsquare ∧ c.type = jsonRsquare)

/-- Token sequences in which every bracket is closed by its match, with at most `d` brackets
open at once. -/
inductive Nested : Nat → List JsonToken → Prop
  | nil (d : Nat) : Nested d []
  | plain {d : Nat} {t : JsonToken} {rest : List JsonToken} : t.IsPlain → Nested d rest → Nested d (t :: rest)
  | group {d : Nat} {o c : JsonToken} {inner rest : List JsonToken} : Matching o c → Nested d inner →
      Nested (d + 1) rest → Nested (d + 1) (o :: inner ++ c :: rest)

/-- A message: one plain token, or one bracket group with at most `MAX_NESTING` brackets open
at once. -/
inductive JsonMessage : List JsonToken → Prop
  | plain {t : JsonToken} : t.IsPlain → JsonMessage [t]
  | group {o c : JsonToken} {inner : List JsonToken} {d : Nat} : Matching o c → Nested d inner →
      (d : Int) + 1 ≤ maxNesting → JsonMessage (o :: inner ++ [c])

/-- The bytes of a token sequence, as `token_size` adds them up. -/
def textSize : List JsonToken → Nat
  | [] => 0
  | t :: ts => t.str.length + textSize ts

/-- Tokens handed to `json_message_process_token` one after the other, as the lexer does. -/
def processTokens (p : JsonMessageParser) (ts : List JsonToken) : JsonMessageParser :=
  ts.foldl (fun p t => jsonMessageProcessToken p t.str t.type t.x t.y) p

/-- A parser between messages: no count, no token. -/
structure JsonMessageParser.Idle (p : JsonMessageParser) : Prop where
  brace : p.braceCount = 0
  bracket : p.bracketCount = 0
  tokens : p.tokens = []
  tokenSize : p.tokenSize = 0

attribute [ext] JsonMessageParser

@[simp] theorem textSize_nil : textSize [] = 0 := rfl

@[simp] theorem textSize_cons (t : JsonToken) (ts : List JsonToken) :
    textSize (t :: ts) = t.str.length + textSize ts := rfl

@[simp] theorem textSize_append (xs ys : List JsonToken) : textSize (xs ++ ys) = textSize xs + textSize ys := by
  induction xs with
  | nil => simp
  | cons x xs ih => rw [List.cons_append, textSize_cons, textSize_cons, ih, Nat.add_assoc]

@[simp] theorem processTokens_nil (p : JsonMessageParser) : processTokens p [] = p := rfl

@[simp] theorem processTokens_cons (p : JsonMessageParser) (t : JsonToken) (ts : List JsonToken) :
    processTokens p (t :: ts) = processTokens (jsonMessageProcessToken p t.str t.type t.x t.y) ts := rfl

theorem processTokens_append (p : JsonMessageParser) (xs ys : List JsonToken) :
    processTokens p (xs ++ ys) = processTokens (processTokens p xs) ys :=
  List.foldl_append

/-- The counts after the switch of `json_message_process_token`. -/
def JsonMessageParser.countToken (p : JsonMessageParser) (type : Nat) : JsonMessageParser :=
  if type = jsonLcurly then { p with braceCount := p.braceCount + 1 }
  else if type = jsonRcurly then { p with braceCount := p.braceCount - 1 }
  else if type = jsonLsquare then { p with bracketCount := p.bracketCount + 1 }
  else if type = jsonRsquare then { p with bracketCount := p.bracketCount - 1 }
  else p

/-- The parser with one more token queued. -/
@[simps]
def JsonMessageParser.queue (p : JsonMessageParser) (t : JsonToken) : JsonMessageParser :=
  { p with tokens := p.tokens ++ [t], tokenSize := p.tokenSize + t.str.length }

/-- The parser with a sequence of tokens queued. -/
@[simps]
def JsonMessageParser.queueAll (p : JsonMessageParser) (ts : List JsonToken) : JsonMessageParser :=
  { p with tokens := p.tokens ++ ts, tokenSize := p.tokenSize + textSize ts }

section Fields

variable (p : JsonMessageParser) (type : Nat)

@[simp] theorem countToken_lexer : (p.countToken type).lexer = p.lexer := by
  unfold JsonMessageParser.countToken
  split_ifs <;> rfl

@[simp] theorem countToken_tokens : (p.countToken type).tokens = p.tokens := by
  unfold JsonMessageParser.countToken
  split_ifs <;> rfl

@[simp] theorem countToken_tokenSize : (p.countToken type).tokenSize = p.tokenSize := by
  unfold JsonMessageParser.countToken
  split_ifs <;> rfl

@[simp] theorem countToken_emitted : (p.countToken type).emitted = p.emitted := by
  unfold JsonMessageParser.countToken
  split_ifs <;> rfl

end Fields

theorem countToken_of_plain {t : JsonToken} (ht : t.IsPlain) (p : JsonMessageParser) :
    p.countToken t.type = p := by
  obtain ⟨h₁, h₂, h₃, h₄, -⟩ := ht
  simp only [JsonMessageParser.countToken, if_neg h₁, if_neg h₂, if_neg h₃, if_neg h₄]

/-- Every type but `JSON_ERROR` and `JSON_END_OF_INPUT` moves the counts and goes on to the
limit checks. -/
theorem processToken_eq_queueToken (p : JsonMessageParser) (input : List UInt8) {type : Nat} (x y : Nat)
    (he : type ≠ jsonError) (hend : type ≠ jsonEndOfInput) :
    jsonMessageProcessToken p input type x y = queueToken (p.countToken type) input type x y := by
  unfold jsonMessageProcessToken JsonMessageParser.countToken
  split_ifs <;> rfl

/-- A token within the limits is queued; the message ends with it unless the counts say it
goes on. -/
theorem queueToken_eq {p : JsonMessageParser} {t : JsonToken} (hsize : p.tokenSize + t.str.length + 1 ≤ maxTokenSize)
    (hcount : p.tokens.length + 1 ≤ maxTokenCount) (hnest : p.bracketCount + p.braceCount ≤ maxNesting) :
    queueToken p t.str t.type t.x t.y =
      if keepsGathering p then p.queue t else outEmit (p.queue t) (.parse (p.tokens ++ [t])) := by
  simp only [queueToken, if_neg (show ¬p.tokenSize + t.str.length + 1 > maxTokenSize by omega),
    if_neg (show ¬p.tokens.length + 1 > maxTokenCount by omega),
    if_neg (show ¬p.bracketCount + p.braceCount > maxNesting by omega)]
  rfl

/-- What an opening bracket and its match do to the counts: the first raises one of them by
one, the second brings both back. -/
theorem Matching.counts {o c : JsonToken} (h : Matching o c) (p : JsonMessageParser) :
    (p.countToken o.type).braceCount + (p.countToken o.type).bracketCount = p.braceCount + p.bracketCount + 1 ∧
      p.braceCount ≤ (p.countToken o.type).braceCount ∧ p.bracketCount ≤ (p.countToken o.type).bracketCount ∧
      ∀ q : JsonMessageParser, q.braceCount = (p.countToken o.type).braceCount →
        q.bracketCount = (p.countToken o.type).bracketCount →
        (q.countToken c.type).braceCount = p.braceCount ∧ (q.countToken c.type).bracketCount = p.bracketCount := by
  rcases h with ⟨ho, hc⟩ | ⟨ho, hc⟩
  · -- a curly pair: the opening brace raises the brace count and its match lowers it
    have hopen : p.countToken o.type = { p with braceCount := p.braceCount + 1 } := by
      simp [JsonMessageParser.countToken, ho]
    have hclose : ∀ q : JsonMessageParser, q.countToken c.type = { q with braceCount := q.braceCount - 1 } := by
      intro q
      simp [JsonMessageParser.countToken, hc, jsonLcurly, jsonRcurly]
    simp only [hopen, hclose]
    exact ⟨by omega, by omega, Int.le_refl _, fun q hb hk => ⟨by omega, hk⟩⟩
  · -- a square pair: the same on the bracket count
    have hopen : p.countToken o.type = { p with bracketCount := p.bracketCount + 1 } := by
      simp [JsonMessageParser.countToken, ho, jsonLcurly, jsonRcurly, jsonLsquare]
    have hclose : ∀ q : JsonMessageParser,
        q.countToken c.type = { q with bracketCount := q.bracketCount - 1 } := by
      intro q
      simp [JsonMessageParser.countToken, hc, jsonLcurly, jsonRcurly, jsonLsquare, jsonRsquare]
    simp only [hopen, hclose]
    exact ⟨by omega, Int.le_refl _, by omega, fun q hb hk => ⟨hb, by omega⟩⟩

theorem Matching.types {o c : JsonToken} (h : Matching o c) :
    o.type ≠ jsonError ∧ o.type ≠ jsonEndOfInput ∧ c.type ≠ jsonError ∧ c.type ≠ jsonEndOfInput := by
  rcases h with ⟨ho, hc⟩ | ⟨ho, hc⟩ <;> rw [ho, hc] <;> decide

theorem keepsGathering_of_pos {p : JsonMessageParser} (hb : 0 ≤ p.braceCount) (hk : 0 ≤ p.bracketCount)
    (hpos : 0 < p.braceCount + p.bracketCount) : keepsGathering p :=
  ⟨by omega, hk, hk⟩

theorem not_keepsGathering_of_zero {p : JsonMessageParser} (hb : p.braceCount = 0) (hk : p.bracketCount = 0) :
    ¬keepsGathering p := fun h => by
  rcases h.1 with h | h <;> omega

theorem maxNesting_eq : maxNesting = 1024 := by decide

theorem queueAll_queue (p : JsonMessageParser) (ts : List JsonToken) (t : JsonToken) :
    (p.queueAll ts).queue t = p.queueAll (ts ++ [t]) := by
  ext <;> simp [Nat.add_assoc]

theorem queueAll_queueAll (p : JsonMessageParser) (xs ys : List JsonToken) :
    (p.queueAll xs).queueAll ys = p.queueAll (xs ++ ys) := by
  ext <;> simp [Nat.add_assoc]

/-- A plain token goes to the limit checks with the counts untouched. -/
theorem processToken_of_plain {t : JsonToken} (ht : t.IsPlain) (p : JsonMessageParser) :
    jsonMessageProcessToken p t.str t.type t.x t.y = queueToken p t.str t.type t.x t.y := by
  rw [processToken_eq_queueToken _ _ _ _ ht.2.2.2.2.1 ht.2.2.2.2.2, countToken_of_plain ht]

/-- A bracket group from a parser with both counts nonnegative, given what its inner sequence
does one level deeper: the opening bracket and the inner tokens are queued, and the closing
bracket reaches the limit checks with the counts back where they were. -/
theorem processTokens_group {d : Nat} {o c : JsonToken} {inner : List JsonToken} (hm : Matching o c)
    (hinner : ∀ {q : JsonMessageParser}, 0 ≤ q.braceCount → 0 ≤ q.bracketCount →
      0 < q.braceCount + q.bracketCount → q.braceCount + q.bracketCount + d ≤ maxNesting →
      q.tokens.length + inner.length ≤ maxTokenCount → q.tokenSize + textSize inner < maxTokenSize →
      processTokens q inner = q.queueAll inner)
    {p : JsonMessageParser} (hb : 0 ≤ p.braceCount) (hk : 0 ≤ p.bracketCount)
    (hnest : p.braceCount + p.bracketCount + d + 1 ≤ maxNesting)
    (hcount : p.tokens.length + inner.length + 1 ≤ maxTokenCount)
    (hsize : p.tokenSize + o.str.length + textSize inner < maxTokenSize) :
    processTokens p (o :: inner ++ [c]) = queueToken (p.queueAll (o :: inner)) c.str c.type c.x c.y := by
  obtain ⟨hsum, hbo, hko, hclose⟩ := hm.counts p
  obtain ⟨hoe, hoend, hce, hcend⟩ := hm.types
  -- the opening bracket is queued one level deeper, and the inner sequence after it
  have h₁ : jsonMessageProcessToken p o.str o.type o.x o.y = (p.countToken o.type).queue o := by
    rw [processToken_eq_queueToken _ _ _ _ hoe hoend, queueToken_eq (by simp; omega) (by simp; omega)
      (by omega), if_pos (keepsGathering_of_pos (by omega) (by omega) (by omega))]
  have h₂ := hinner (q := (p.countToken o.type).queue o) (by simp; omega) (by simp; omega) (by simp; omega)
    (by simp; omega) (by simp; omega) (by simp; omega)
  -- the closing bracket brings the counts back to the outer level
  obtain ⟨hb₃, hk₃⟩ := hclose (((p.countToken o.type).queue o).queueAll inner) rfl rfl
  have hr : (((p.countToken o.type).queue o).queueAll inner).countToken c.type = p.queueAll (o :: inner) := by
    ext <;> simp [hb₃, hk₃, Nat.add_assoc]
  rw [List.cons_append, processTokens_cons, h₁, processTokens_append, h₂, processTokens_cons, processTokens_nil,
    processToken_eq_queueToken _ _ _ _ hce hcend, hr]

/-- Inside an open bracket the tokens of a nested sequence are queued and no message ends;
the counts are back where they were after the last one. -/
theorem processTokens_nested {d : Nat} {ts : List JsonToken} (h : Nested d ts) :
    ∀ {p : JsonMessageParser}, 0 ≤ p.braceCount → 0 ≤ p.bracketCount → 0 < p.braceCount + p.bracketCount →
      p.braceCount + p.bracketCount + d ≤ maxNesting → p.tokens.length + ts.length ≤ maxTokenCount →
      p.tokenSize + textSize ts < maxTokenSize → processTokens p ts = p.queueAll ts := by
  -- induction on the grammar; a group's inner sequence is the induction hypothesis one level deeper
  induction h with
  | nil d =>
    intro p _ _ _ _ _ _
    ext <;> simp
  | @plain d t rest ht _ ih =>
    intro p hb hk hpos hnest hcount hsize
    simp only [List.length_cons, textSize_cons] at hcount hsize
    rw [processTokens_cons, processToken_of_plain ht, queueToken_eq (by omega) (by omega) (by omega),
      if_pos (keepsGathering_of_pos hb hk hpos), ih (p := p.queue t) hb hk hpos hnest (by simp; omega)
        (by simp; omega)]
    ext <;> simp [Nat.add_assoc]
  | @group d o c inner rest hm _ _ ihin ihrest =>
    intro p hb hk hpos hnest hcount hsize
    simp only [List.length_cons, List.length_append, textSize_cons, textSize_append] at hcount hsize
    push_cast at hnest
    have hg := processTokens_group hm ihin hb hk (by omega) (by omega) (by omega)
    -- the counts are still positive after the closing bracket: the group is queued and gathering goes on
    rw [queueToken_eq (by simp; omega) (by simp; omega) (by simp; omega),
      if_pos (keepsGathering_of_pos (p := p.queueAll (o :: inner)) hb hk hpos), queueAll_queue] at hg
    rw [show o :: inner ++ c :: rest = (o :: inner ++ [c]) ++ rest by simp, processTokens_append, hg,
      ihrest (p := p.queueAll (o :: inner ++ [c])) hb hk hpos (by simp; omega) (by simp; omega)
        (by simp; omega), queueAll_queueAll]

/-- Handed to an idle parser, the tokens of one message are emitted as one parse, and the
parser is idle again. -/
theorem processTokens_message {m : List JsonToken} (hm : JsonMessage m) (hcount : m.length ≤ maxTokenCount)
    (hsize : textSize m < maxTokenSize) {p : JsonMessageParser} (hidle : p.Idle) :
    processTokens p m = { p with emitted := p.emitted ++ [.parse m] } := by
  obtain ⟨hb, hk, ht, hs⟩ := hidle
  cases hm with
  | @plain t ht' =>
    -- a plain token from an idle parser is a message of its own
    simp only [List.length_cons, textSize_cons] at hcount hsize
    rw [processTokens_cons, processTokens_nil, processToken_of_plain ht', queueToken_eq (by omega)
      (by simp [ht]; omega) (by rw [hb, hk, maxNesting_eq]; decide), if_neg (not_keepsGathering_of_zero hb hk)]
    ext <;> simp [outEmit, hb, hk, ht, hs]
  | @group o c inner d hmatch hin hd =>
    simp only [List.length_cons, List.length_append, textSize_cons, textSize_append] at hcount hsize
    -- the closing bracket brings both counts back to zero, and the message is emitted
    rw [processTokens_group hmatch (processTokens_nested hin) (by omega) (by omega)
        (by rw [hb, hk]; omega) (by simp [ht]; omega) (by omega),
      queueToken_eq (by simp [hs]; omega) (by simp [ht]; omega) (by simp [hb, hk, maxNesting_eq]),
      if_neg (not_keepsGathering_of_zero (p := p.queueAll (o :: inner)) hb hk)]
    ext <;> simp [outEmit, hb, hk, ht, hs]

/-- Handed the tokens of a sequence of messages, an idle parser emits one parse for each
message, with exactly its tokens, and is idle again. -/
theorem processTokens_messages {p : JsonMessageParser} (hidle : p.Idle) (msgs : List (List JsonToken))
    (hmsgs : ∀ m ∈ msgs, JsonMessage m ∧ m.length ≤ maxTokenCount ∧ textSize m < maxTokenSize) :
    processTokens p msgs.flatten = { p with emitted := p.emitted ++ msgs.map .parse } := by
  induction msgs generalizing p with
  | nil => simp
  | cons m msgs ih =>
    obtain ⟨hm, hcount, hsize⟩ := hmsgs m (List.mem_cons_self ..)
    rw [List.flatten_cons, processTokens_append, processTokens_message hm hcount hsize hidle,
      ih (p := { p with emitted := p.emitted ++ [.parse m] }) ⟨hidle.brace, hidle.bracket, hidle.tokens, hidle.tokenSize⟩
        fun m' hm' => hmsgs m' (List.mem_cons_of_mem _ hm')]
    simp

/-- The array [1] and then null, handed to a fresh parser: two parses. -/
theorem processTokens_messages_array_null :
    (jsonMessageParserInit false).Idle ∧
      processTokens (jsonMessageParserInit false)
          [⟨jsonLsquare, 0, 0, [0x5B]⟩, ⟨jsonInteger, 1, 0, [0x31]⟩, ⟨jsonRsquare, 2, 0, [0x5D]⟩,
            ⟨jsonKeyword, 4, 0, [0x6E, 0x75, 0x6C, 0x6C]⟩] =
        { jsonMessageParserInit false with
          emitted := [.parse [⟨jsonLsquare, 0, 0, [0x5B]⟩, ⟨jsonInteger, 1, 0, [0x31]⟩, ⟨jsonRsquare, 2, 0, [0x5D]⟩],
            .parse [⟨jsonKeyword, 4, 0, [0x6E, 0x75, 0x6C, 0x6C]⟩]] } := by
  have hidle : (jsonMessageParserInit false).Idle := ⟨rfl, rfl, rfl, rfl⟩
  refine ⟨hidle, processTokens_messages hidle
    [[⟨jsonLsquare, 0, 0, [0x5B]⟩, ⟨jsonInteger, 1, 0, [0x31]⟩, ⟨jsonRsquare, 2, 0, [0x5D]⟩],
      [⟨jsonKeyword, 4, 0, [0x6E, 0x75, 0x6C, 0x6C]⟩]] ?_⟩
  intro m hm
  simp only [List.mem_cons, List.not_mem_nil, or_false] at hm
  rcases hm with rfl | rfl
  · exact ⟨.group (d := 0) (Or.inr ⟨rfl, rfl⟩) (.plain (by decide) (.nil 0)) (by decide), by decide, by decide⟩
  · exact ⟨.plain (by decide), by decide, by decide⟩

end Xqemu.Qobject
