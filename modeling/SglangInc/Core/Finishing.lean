import SglangInc.Core.StopRegex
import SglangInc.Lib.Utf8
import Mathlib.Data.List.Infix

/-!
# When a Request Is Finished

`Req.check_finished` of `managers/schedule_batch.py` and its four checks, and
`SamplingParams.normalize` of `sampling/sampling_params.py`, which measures the
stop strings and regexes.

A step of the scheduler appends the tokens it got for a request and calls
`check_finished` with their number: one token in plain decoding
(`process_batch_result_decode`), and the accepted ones with the overlapped
speculative worker. `feed` is a request taken through such steps until it is
finished.

The tokenizer and the character classes of the regexes are not part of the
repository. A tokenizer decodes a list of ids and encodes a text; `Vocab` is the
kind that has a byte string for each id and decodes lossily. A request without
a tokenizer is one whose tokenizer has no ids of its own and that has no stop
strings. Token sets are lists in the order in which they are iterated. Requests
have no grammar. `decoded_text` is written nowhere in the scheduler and is the
empty text, which contains no stop string but the empty one.
-/

namespace SglangInc.Finish

open Regex

/-- The reasons of `finished_reason`, with what they carry. -/
inductive FinishReason where
  | matchedToken (matched : Int)
  | matchedStr (matched : List Char)
  | matchedRegex (matched : SubPattern)
  | length (length : Nat)
  | abort (message : String)

/-- Part of a `tokenizer`. -/
structure Tokenizer where
  decode : List Int → List Char
  encode : List Char → List Int
  eosTokenId : Option Int
  additionalStopTokenIds : List Int

/-- The parameters that the checks read. -/
structure SamplingParams where
  maxNewTokens : Nat
  stopTokenIds : List Int
  ignoreEos : Bool
  stopStrs : List (List Char)
  stopRegexStrs : List SubPattern
  stopStrMaxLen : Nat := 0
  stopRegexMaxLen : Nat := 0

/-- `SamplingParams.normalize`. -/
def SamplingParams.normalize (params : SamplingParams) (tokenizer : Tokenizer) : SamplingParams :=
  { params with
    stopStrMaxLen := params.stopStrs.foldl
      (fun maxLen stopStr => max maxLen (tokenizer.encode stopStr).length) 0
    stopRegexMaxLen := params.stopRegexStrs.foldl
      (fun maxLen stopRegex => max maxLen stopRegex.maxLength) 0 }

/-- What the checks read and write of a request. -/
structure Req where
  samplingParams : SamplingParams
  tokenizer : Tokenizer
  classes : CharClasses
  eosTokenIds : List Int
  vocabSize : Int
  outputIds : List Int
  finishedReason : Option FinishReason
  toFinish : Option FinishReason
  finishedLen : Option Nat

namespace Req

/-- `finished`. -/
def finished (req : Req) : Bool := req.finishedReason.isSome

/-- `output_ids_through_stop`. -/
def outputIdsThroughStop (req : Req) : List Int :=
  match req.finishedLen with
  | some finishedLen => req.outputIds.take finishedLen
  | none => req.outputIds

/-- There is a stop string or a stop regex. -/
def hasStopStrs (req : Req) : Bool :=
  0 < req.samplingParams.stopStrs.length || 0 < req.samplingParams.stopRegexStrs.length

/-- The number of tokens whose text is examined. -/
def tailLen (req : Req) : Nat :=
  let maxLenTailStr :=
    max (req.samplingParams.stopStrMaxLen + 1) (req.samplingParams.stopRegexMaxLen + 1)
  min (maxLenTailStr + 1) req.outputIds.length

/-- `self.output_ids[-n:]`. -/
def lastOutputIds (req : Req) (n : Nat) : List Int :=
  if n = 0 then req.outputIds else req.outputIds.drop (req.outputIds.length - n)

/-- `tail_str`. -/
def tailStr (req : Req) : List Char := req.tokenizer.decode (req.lastOutputIds req.tailLen)

/-- Whether a token is one of those that end a request. -/
def matchedEos (req : Req) (tokenId : Int) : Bool :=
  req.samplingParams.stopTokenIds.contains tokenId || req.eosTokenIds.contains tokenId ||
    req.tokenizer.eosTokenId == some tokenId ||
    req.tokenizer.additionalStopTokenIds.contains tokenId

/-- `_check_token_based_finish`. -/
def checkTokenBasedFinish (req : Req) (newAcceptedTokens : List Int) : Option Req :=
  if req.samplingParams.ignoreEos then none
  else
    match newAcceptedTokens.findIdx? req.matchedEos with
    | none => none
    | some i =>
      let matchedPos := req.outputIds.length - newAcceptedTokens.length + i
      some { req with
        finishedReason := newAcceptedTokens[i]?.map .matchedToken
        finishedLen := some (matchedPos + 1) }

/-- A token that `_check_vocab_boundary_finish` replaces. -/
def outOfVocab (req : Req) (tokenId : Int) : Bool := tokenId > req.vocabSize || tokenId < 0

/-- `self.output_ids[offset] = next(iter(ids))`, if there are any. -/
def overwrite (outputIds : List Int) (offset : Nat) (ids : List Int) : List Int :=
  match ids with
  | [] => outputIds
  | id :: _ => outputIds.set offset id

/-- `_check_vocab_boundary_finish`. -/
def checkVocabBoundaryFinish (req : Req) (newAcceptedTokens : List Int) : Option Req :=
  match newAcceptedTokens.findIdx? req.outOfVocab with
  | none => none
  | some i =>
    let offset := req.outputIds.length - newAcceptedTokens.length + i
    let outputIds := overwrite req.outputIds offset req.samplingParams.stopTokenIds
    some { req with
      outputIds := overwrite outputIds offset req.eosTokenIds
      finishedReason := some (.matchedStr "NaN happened".toList)
      finishedLen := some (offset + 1) }

/-- The first stop string or else the first regex that is found in a text. -/
def matchIn (req : Req) (tailStr : List Char) : Option FinishReason :=
  match req.samplingParams.stopStrs.find? (fun stopStr => decide (stopStr <:+: tailStr)) with
  | some stopStr => some (.matchedStr stopStr)
  | none => (req.samplingParams.stopRegexStrs.find? (search req.classes · tailStr)).map
      .matchedRegex

/-- `_check_str_based_finish`. -/
def checkStrBasedFinish (req : Req) : Option Req :=
  if req.hasStopStrs then
    (req.matchIn req.tailStr).map fun reason => { req with finishedReason := some reason }
  else none

/-- `check_finished`. -/
def checkFinished (req : Req) (newAcceptedLen : Nat) : Req :=
  if req.finished then req
  else
    match req.toFinish with
    | some reason => { req with finishedReason := some reason, toFinish := none }
    | none =>
      if req.samplingParams.maxNewTokens ≤ req.outputIds.length then
        { req with
          finishedReason := some (.length req.samplingParams.maxNewTokens)
          finishedLen := some req.samplingParams.maxNewTokens }
      else
        let newAcceptedTokens := req.lastOutputIds newAcceptedLen
        ((req.checkTokenBasedFinish newAcceptedTokens).or
          ((req.checkVocabBoundaryFinish newAcceptedTokens).or req.checkStrBasedFinish)).getD req

/-- The tokens of a step. -/
def append (req : Req) (tokens : List Int) : Req :=
  { req with outputIds := req.outputIds ++ tokens }

/-- Groups of tokens in turn, each one followed by `check_finished`, until the
    request is finished. -/
def feed (req : Req) : List (List Int) → Req
  | [] => req
  | group :: groups =>
    if req.finished then req else ((req.append group).checkFinished group.length).feed groups

/-- One token at a time. -/
def feedEach (req : Req) (tokens : List Int) : Req := req.feed (tokens.map ([·]))

/-- How a request ended, for its client. -/
def outcome (req : Req) : Option FinishReason × List Int :=
  (req.finishedReason, req.outputIdsThroughStop)

end Req

/-- A vocabulary of byte strings, with a way to cut a text into its tokens. -/
structure Vocab where
  bytes : Int → List Nat
  encode : List Char → List Int

/-- The tokenizer of a vocabulary: decoding is lossy. -/
def Vocab.tokenizer (vocab : Vocab) (eosTokenId : Option Int)
    (additionalStopTokenIds : List Int) : Tokenizer where
  decode := fun ids => Utf8.decodeLossy (ids.flatMap vocab.bytes)
  encode := vocab.encode
  eosTokenId := eosTokenId
  additionalStopTokenIds := additionalStopTokenIds

end SglangInc.Finish
