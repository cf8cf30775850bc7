import Mathlib.Data.Int.Basic
import Mathlib.Algebra.Group.Nat.Defs
import Mathlib.Algebra.Group.Int.Defs

/-!
# Splitting JSON input into messages (qobject/json-lexer.c, json-streamer.c)

The lexer is a table-driven state machine over bytes: `json_lexer[state][ch]`
gives the next state, a token type when a token ends, or either with the
`LOOKAHEAD` bit when the byte belongs to the next token and has to be fed again.
Each token goes to `json_message_process_token`, which counts the open braces
and brackets and hands the tokens gathered so far to the parser when a message
is complete, or reports an error.

A call of `parser->emit` is recorded as a `JsonEmission`: the tokens given to
`json_parser_parse`, which the model does not parse further, or the error set
instead.  Lexer states and token types are the numbers of their enumerations,
since `json_lexer_feed_char` passes a lexer state as a token type when a token
grows too long.
-/

namespace Xqemu.Qobject

/-! ## Token types and lexer states -/

def jsonError : Nat := 0
def jsonLcurly : Nat := 100
def jsonRcurly : Nat := 101
def jsonLsquare : Nat := 102
def jsonRsquare : Nat := 103
def jsonColon : Nat := 104
def jsonComma : Nat := 105
def jsonInteger : Nat := 106
def jsonFloat : Nat := 107
def jsonKeyword : Nat := 108
def jsonString : Nat := 109
def jsonInterp : Nat := 110
def jsonEndOfInput : Nat := 111

def inRecovery : Nat := 1
def inDqStringEscape : Nat := 2
def inDqString : Nat := 3
def inSqStringEscape : Nat := 4
def inSqString : Nat := 5
def inZero : Nat := 6
def inExpDigits : Nat := 7
def inExpSign : Nat := 8
def inExpE : Nat := 9
def inMantissa : Nat := 10
def inMantissaDigits : Nat := 11
def inDigits : Nat := 12
def inSign : Nat := 13
def inKeyword : Nat := 14
def inInterp : Nat := 15
def inStart : Nat := 16
def inStartInterp : Nat := 17

def lookahead : Nat := 0x80

/-- `TERMINAL(state)`: every byte ends the token without being consumed. -/
def terminal (state : Nat) : Nat := state ||| lookahead

/-- `json_lexer[state][ch]`.  Designated initializers given later in a row
override earlier ones, so the single bytes are tested before the ranges; what
the table leaves out is 0, `JSON_ERROR`. -/
def jsonLexerTable (state : Nat) (ch : UInt8) : Nat :=
  let c := ch.toNat
  let isDigit := '0'.toNat ≤ c ∧ c ≤ '9'.toNat
  let isLower := 'a'.toNat ≤ c ∧ c ≤ 'z'.toNat
  if state = inRecovery then
    if c = '['.toNat ∨ c = ']'.toNat ∨ c = '{'.toNat ∨ c = '}'.toNat ∨ c = ':'.toNat ∨ c = ','.toNat then
      inStart ||| lookahead
    else if c = '\t'.toNat then inRecovery
    else if c ≤ 0x1F then inStart ||| lookahead
    else if c ≤ 0xFD then inRecovery
    else inStart ||| lookahead
  else if state = inDqStringEscape ∨ state = inSqStringEscape then
    if 0x20 ≤ c ∧ c ≤ 0xFD then (if state = inDqStringEscape then inDqString else inSqString) else jsonError
  else if state = inDqString then
    if c = '"'.toNat then jsonString
    else if c = '\\'.toNat then inDqStringEscape
    else if 0x20 ≤ c ∧ c ≤ 0xFD then inDqString else jsonError
  else if state = inSqString then
    if c = '\''.toNat then jsonString
    else if c = '\\'.toNat then inSqStringEscape
    else if 0x20 ≤ c ∧ c ≤ 0xFD then inSqString else jsonError
  else if state = inZero then
    if c = '.'.toNat then inMantissa else if isDigit then jsonError else terminal jsonInteger
  else if state = inExpDigits then
    if isDigit then inExpDigits else terminal jsonFloat
  else if state = inExpSign then
    if isDigit then inExpDigits else jsonError
  else if state = inExpE then
    if c = '-'.toNat ∨ c = '+'.toNat then inExpSign else if isDigit then inExpDigits else jsonError
  else if state = inMantissaDigits then
    if isDigit then inMantissaDigits
    else if c = 'e'.toNat ∨ c = 'E'.toNat then inExpE else terminal jsonFloat
  else if state = inMantissa then
    if isDigit then inMantissaDigits else jsonError
  else if state = inDigits then
    if isDigit then inDigits
    else if c = 'e'.toNat ∨ c = 'E'.toNat then inExpE
    else if c = '.'.toNat then inMantissa else terminal jsonInteger
  else if state = inSign then
    if c = '0'.toNat then inZero else if isDigit then inDigits else jsonError
  else if state = inKeyword then
    if isLower then inKeyword else terminal jsonKeyword
  else if state = inInterp then
    if isLower ∨ ('A'.toNat ≤ c ∧ c ≤ 'Z'.toNat) ∨ isDigit then inInterp else terminal jsonInterp
  else if state = inStart ∨ state = inStartInterp then
    if c = '"'.toNat then inDqString
    else if c = '\''.toNat then inSqString
    else if c = '0'.toNat then inZero
    else if isDigit then inDigits
    else if c = '-'.toNat then inSign
    else if c = '{'.toNat then jsonLcurly
    else if c = '}'.toNat then jsonRcurly
    else if c = '['.toNat then jsonLsquare
    else if c = ']'.toNat then jsonRsquare
    else if c = ','.toNat then jsonComma
    else if c = ':'.toNat then jsonColon
    else if isLower then inKeyword
    else if c = ' '.toNat ∨ c = '\t'.toNat ∨ c = '\r'.toNat ∨ c = '\n'.toNat then inStart
    else if state = inStartInterp ∧ c = '%'.toNat then inInterp
    else jsonError
  else jsonError

/-! ## The streamer -/

/-- `struct JSONToken`. -/
structure JsonToken where
  type : Nat
  x : Nat
  y : Nat
  str : List UInt8
  deriving DecidableEq, Repr

/-- The errors `json_message_process_token` sets. -/
inductive JsonStreamError where
  /-- "JSON parse error, stray '%s'" -/
  | stray (text : List UInt8)
  /-- "JSON token size limit exceeded" -/
  | tokenSizeLimit
  /-- "JSON token count limit exceeded" -/
  | tokenCountLimit
  /-- "JSON nesting depth limit exceeded" -/
  | nestingLimit
  deriving DecidableEq, Repr

/-- A call of `parser->emit(opaque, json, err)`. -/
inductive JsonEmission where
  /-- The result of `json_parser_parse` on these tokens. -/
  | parse (tokens : List JsonToken)
  /-- `json` NULL and `err` set. -/
  | error (e : JsonStreamError)
  deriving DecidableEq, Repr

/-- `struct JSONLexer`. -/
structure JsonLexer where
  startState : Nat
  state : Nat
  token : List UInt8
  x : Nat
  y : Nat
  deriving DecidableEq, Repr

/-- `struct JSONMessageParser`, with the calls of `emit` made so far. -/
structure JsonMessageParser where
  lexer : JsonLexer
  braceCount : Int
  bracketCount : Int
  tokens : List JsonToken
  tokenSize : Nat
  emitted : List JsonEmission
  deriving DecidableEq, Repr

def maxTokenSize : Nat := 64 <<< 20
def maxTokenCount : Nat := 2 <<< 20
def maxNesting : Int := 1 <<< 10

/-- The code at `out_emit`: the counts and the tokens are dropped and `emit`
is called. -/
def outEmit (p : JsonMessageParser) (e : JsonEmission) : JsonMessageParser :=
  { p with braceCount := 0, bracketCount := 0, tokens := [], tokenSize := 0, emitted := p.emitted ++ [e] }

/-- The test after which `json_message_process_token` goes on gathering
tokens: `(brace_count > 0 || bracket_count > 0) && bracket_count >= 0 &&
bracket_count >= 0`. -/
def keepsGathering (p : JsonMessageParser) : Prop :=
  (p.braceCount > 0 ∨ p.bracketCount > 0) ∧ p.bracketCount ≥ 0 ∧ p.bracketCount ≥ 0

instance (p : JsonMessageParser) : Decidable (keepsGathering p) :=
  inferInstanceAs (Decidable (_ ∧ _))

/-- The part of `json_message_process_token` after the switch, for a token of
any type other than `JSON_ERROR` and `JSON_END_OF_INPUT`: the limit checks,
then the token is queued, and the tokens are parsed unless the message goes on. -/
def queueToken (p : JsonMessageParser) (input : List UInt8) (type x y : Nat) : JsonMessageParser :=
  if p.tokenSize + input.length + 1 > maxTokenSize then outEmit p (.error .tokenSizeLimit)
  else if p.tokens.length + 1 > maxTokenCount then outEmit p (.error .tokenCountLimit)
  else if p.bracketCount + p.braceCount > maxNesting then outEmit p (.error .nestingLimit)
  else
    let p := { p with tokens := p.tokens ++ [⟨type, x, y, input⟩], tokenSize := p.tokenSize + input.length }
    if keepsGathering p then p else outEmit p (.parse p.tokens)

/-- `json_message_process_token(lexer, input, type, x, y)`. -/
def jsonMessageProcessToken (p : JsonMessageParser) (input : List UInt8) (type x y : Nat) :
    JsonMessageParser :=
  if type = jsonLcurly then queueToken { p with braceCount := p.braceCount + 1 } input type x y
  else if type = jsonRcurly then queueToken { p with braceCount := p.braceCount - 1 } input type x y
  else if type = jsonLsquare then queueToken { p with bracketCount := p.bracketCount + 1 } input type x y
  else if type = jsonRsquare then queueToken { p with bracketCount := p.bracketCount - 1 } input type x y
  else if type = jsonError then outEmit p (.error (.stray input))
  else if type = jsonEndOfInput then
    if p.tokens = [] then p else outEmit p (.parse p.tokens)
  else queueToken p input type x y

/-! ## The lexer -/

/-- The failures of the lexer: a failed `assert`, and the fuel of the loop of
`json_lexer_feed_char` running out. -/
inductive JsonFault where
  | assertion
  | outOfFuel
  deriving DecidableEq, Repr

/-- The types that the `switch` of `json_lexer_feed_char` hands on as tokens. -/
def isTokenType (s : Nat) : Bool := jsonLcurly ≤ s && s ≤ jsonInterp

/-- One turn of the loop of `json_lexer_feed_char` on byte `ch`: the parser and
whether the byte was consumed. -/
def feedCharStep (p : JsonMessageParser) (ch : UInt8) (flush : Bool) :
    Except JsonFault (JsonMessageParser × Bool) :=
  if ¬p.lexer.state < inStartInterp + 1 then throw .assertion
  else
    let next := jsonLexerTable p.lexer.state ch
    let consumed := !flush && next &&& lookahead == 0
    let newState := next &&& (lookahead ^^^ 0xFF)
    let lexer := if consumed then { p.lexer with token := p.lexer.token ++ [ch] } else p.lexer
    let p := { p with lexer }
    let p :=
      if isTokenType newState then
        let p := jsonMessageProcessToken p p.lexer.token newState p.lexer.x p.lexer.y
        { p with lexer := { p.lexer with token := [], state := p.lexer.startState } }
      else if newState = inStart then { p with lexer := { p.lexer with token := [], state := p.lexer.startState } }
      else if newState = jsonError then
        let p := jsonMessageProcessToken p p.lexer.token jsonError p.lexer.x p.lexer.y
        { p with lexer := { p.lexer with token := [], state := inRecovery } }
      else if newState = inRecovery then { p with lexer := { p.lexer with token := [], state := inRecovery } }
      else { p with lexer := { p.lexer with state := newState } }
    pure (p, consumed)

/-- The `while` loop of `json_lexer_feed_char`, `fuel` turns at most: until
the byte is consumed, or when flushing until the lexer is back in its start
state. -/
def feedCharLoop (ch : UInt8) (flush : Bool) : (fuel : Nat) → JsonMessageParser → Bool →
    Except JsonFault JsonMessageParser
  | 0, _, _ => throw .outOfFuel
  | fuel + 1, p, consumed =>
      if (if flush then p.lexer.state ≠ p.lexer.startState else consumed = false) then do
        let (p, consumed) ← feedCharStep p ch flush
        feedCharLoop ch flush fuel p consumed
      else pure p

/-- `json_lexer_feed_char(lexer, ch, flush)`; a byte takes at most two turns of
the loop, and the model gives it three. -/
def jsonLexerFeedChar (p : JsonMessageParser) (ch : UInt8) (flush : Bool) :
    Except JsonFault JsonMessageParser := do
  let x := if ch = '\n'.toNat.toUInt8 then 0 else p.lexer.x + 1
  let y := if ch = '\n'.toNat.toUInt8 then p.lexer.y + 1 else p.lexer.y
  let p ← feedCharLoop ch flush 3 { p with lexer := { p.lexer with x, y } } false
  if p.lexer.token.length > maxTokenSize then
    let p := jsonMessageProcessToken p p.lexer.token p.lexer.state p.lexer.x p.lexer.y
    pure { p with lexer := { p.lexer with token := [], state := p.lexer.startState } }
  else pure p

/-- `json_lexer_feed(lexer, buffer, size)`. -/
def jsonLexerFeed (p : JsonMessageParser) (buffer : List UInt8) : Except JsonFault JsonMessageParser :=
  buffer.foldlM (fun p ch => jsonLexerFeedChar p ch false) p

/-- `json_lexer_flush(lexer)`. -/
def jsonLexerFlush (p : JsonMessageParser) : Except JsonFault JsonMessageParser := do
  let p ← jsonLexerFeedChar p 0 true
  if p.lexer.state ≠ p.lexer.startState then throw .assertion
  else pure (jsonMessageProcessToken p p.lexer.token jsonEndOfInput p.lexer.x p.lexer.y)

/-- `json_message_parser_init(parser, emit, opaque, ap)`; `interpolation` is
`ap != NULL`. -/
def jsonMessageParserInit (interpolation : Bool) : JsonMessageParser :=
  { lexer := { startState := if interpolation then inStartInterp else inStart,
               state := if interpolation then inStartInterp else inStart, token := [], x := 0, y := 0 },
    braceCount := 0, bracketCount := 0, tokens := [], tokenSize := 0, emitted := [] }

/-- `json_message_parser_feed(parser, buffer, size)`. -/
def jsonMessageParserFeed (p : JsonMessageParser) (buffer : List UInt8) : Except JsonFault JsonMessageParser :=
  jsonLexerFeed p buffer

/-- `json_message_parser_flush(parser)`. -/
def jsonMessageParserFlush (p : JsonMessageParser) : Except JsonFault JsonMessageParser := do
  let p ← jsonLexerFlush p
  if p.tokens ≠ [] then throw .assertion else pure p

/-! ## Where messages end

The comment of `json_message_process_token` and its three-way test mean to go on
with a message only while both counts are nonnegative and one is positive, so
that an unmatched `}` or `]` ends it.  The test checks `bracket_count >= 0`
twice and `brace_count` never, so inside an open bracket an unmatched `}` is
queued and the message goes on.
-/

/-- The rule for going on with a message that the test is meant to check. -/
def intendsGathering (p : JsonMessageParser) : Prop :=
  (p.braceCount > 0 ∨ p.bracketCount > 0) ∧ p.braceCount ≥ 0 ∧ p.bracketCount ≥ 0

/-- A token that passes the limit checks is queued, and the message goes on
exactly when `keepsGathering` holds after it. -/
theorem queueToken_of_within_limits {p : JsonMessageParser} {input : List UInt8} {type x y : Nat}
    (hsize : p.tokenSize + input.length + 1 ≤ maxTokenSize) (hcount : p.tokens.length + 1 ≤ maxTokenCount)
    (hnest : p.bracketCount + p.braceCount ≤ maxNesting)
    (hkeep : keepsGathering { p with tokens := p.tokens ++ [⟨type, x, y, input⟩] }) :
    queueToken p input type x y =
      { p with tokens := p.tokens ++ [⟨type, x, y, input⟩], tokenSize := p.tokenSize + input.length } := by
  have hkeep' : keepsGathering
      { p with tokens := p.tokens ++ [⟨type, x, y, input⟩], tokenSize := p.tokenSize + input.length } := hkeep
  simp only [queueToken, if_neg (show ¬p.tokenSize + input.length + 1 > maxTokenSize by omega),
    if_neg (show ¬p.tokens.length + 1 > maxTokenCount by omega), if_neg (show ¬p.bracketCount + p.braceCount > maxNesting by omega),
    if_pos hkeep']

/-- Inside an open bracket, a `}` that takes the brace count below zero ends
nothing: the token is queued, no message is emitted, and the count stays
negative, although the intended rule ends the message there. -/
theorem processToken_unmatched_rcurly_in_array (p : JsonMessageParser) (input : List UInt8) (x y : Nat)
    (hbracket : 0 < p.bracketCount) (hbrace : p.braceCount ≤ 0)
    (hsize : p.tokenSize + input.length + 1 ≤ maxTokenSize) (hcount : p.tokens.length + 1 ≤ maxTokenCount)
    (hnest : p.bracketCount + p.braceCount ≤ maxNesting + 1) :
    (jsonMessageProcessToken p input jsonRcurly x y).emitted = p.emitted ∧
      (jsonMessageProcessToken p input jsonRcurly x y).tokens = p.tokens ++ [⟨jsonRcurly, x, y, input⟩] ∧
      (jsonMessageProcessToken p input jsonRcurly x y).braceCount < 0 ∧
      ¬intendsGathering (jsonMessageProcessToken p input jsonRcurly x y) := by
  have hq : jsonMessageProcessToken p input jsonRcurly x y =
      { p with braceCount := p.braceCount - 1, tokens := p.tokens ++ [⟨jsonRcurly, x, y, input⟩],
               tokenSize := p.tokenSize + input.length } := by
    have hkeep : keepsGathering
        { p with braceCount := p.braceCount - 1, tokens := p.tokens ++ [⟨jsonRcurly, x, y, input⟩] } :=
      ⟨Or.inr hbracket, by dsimp only; omega, by dsimp only; omega⟩
    simp only [jsonMessageProcessToken, show jsonRcurly ≠ jsonLcurly by decide, if_false, if_true]
    exact queueToken_of_within_limits hsize hcount (by simp only; omega) hkeep
  rw [hq]
  refine ⟨rfl, rfl, by simp only; omega, fun h => ?_⟩
  have := h.2.1
  simp only at this
  omega

theorem processToken_unmatched_rcurly_after_lsquare :
    (0 : Int) < 1 ∧ (0 : Int) ≤ 0 ∧ 0 + [0x7D].length + 1 ≤ maxTokenSize ∧
      [(⟨jsonLsquare, 1, 0, [0x5B]⟩ : JsonToken)].length + 1 ≤ maxTokenCount ∧ (1 : Int) + 0 ≤ maxNesting + 1 ∧
      (jsonMessageProcessToken ⟨⟨inStart, inStart, [0x7D], 2, 0⟩, 0, 1, [⟨jsonLsquare, 1, 0, [0x5B]⟩], 1, []⟩
          [0x7D] jsonRcurly 2 0).emitted = [] ∧
      (jsonMessageProcessToken ⟨⟨inStart, inStart, [0x7D], 2, 0⟩, 0, 1, [⟨jsonLsquare, 1, 0, [0x5B]⟩], 1, []⟩
          [0x7D] jsonRcurly 2 0).tokens = [⟨jsonLsquare, 1, 0, [0x5B]⟩] ++ [⟨jsonRcurly, 2, 0, [0x7D]⟩] ∧
      (jsonMessageProcessToken ⟨⟨inStart, inStart, [0x7D], 2, 0⟩, 0, 1, [⟨jsonLsquare, 1, 0, [0x5B]⟩], 1, []⟩
          [0x7D] jsonRcurly 2 0).braceCount < 0 ∧
      ¬intendsGathering (jsonMessageProcessToken ⟨⟨inStart, inStart, [0x7D], 2, 0⟩, 0, 1,
          [⟨jsonLsquare, 1, 0, [0x5B]⟩], 1, []⟩ [0x7D] jsonRcurly 2 0) :=
  ⟨by decide, by decide, by decide, by decide, by decide,
    processToken_unmatched_rcurly_in_array _ [0x7D] 2 0 (by decide) (by decide) (by decide) (by decide) (by decide)⟩

/-- The input `[}{}` fed and flushed: one message of four tokens, where the
intended rule ends a message at the `}` and emits `{}` as a message of its own. -/
theorem jsonMessageParser_unmatched_rcurly_in_array :
    (do
      let p ← jsonMessageParserFeed (jsonMessageParserInit false) [0x5B, 0x7D, 0x7B, 0x7D]
      let p ← jsonMessageParserFlush p
      pure p.emitted : Except JsonFault (List JsonEmission)) =
      .ok [.parse [⟨jsonLsquare, 1, 0, [0x5B]⟩, ⟨jsonRcurly, 2, 0, [0x7D]⟩,
                   ⟨jsonLcurly, 3, 0, [0x7B]⟩, ⟨jsonRcurly, 4, 0, [0x7D]⟩]] := by
  decide +kernel

end Xqemu.Qobject
