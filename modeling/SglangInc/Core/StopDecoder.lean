import SglangInc.Core.Detokenize

/-!
# Stop Sequences in the Router

`tokenizer/stop.rs` of the router: the text of a stream of tokens up to a stop string.

The text of a token is pushed to the jail buffer. When a stop string is in the buffer the
decoder stops. Otherwise it keeps the end of the buffer that may be the beginning of a
stop string, and returns what is in front of it. A hidden stop string is cut off with
what follows it, a visible one is returned.

Offsets are in bytes, and a slice that cuts a character has no result here.
-/

namespace SglangInc.Stop

open ByteText Detok

/-- `SequenceDecoderOutput`. -/
inductive SequenceDecoderOutput where
  | text (s : List Char)
  | held
  | stopped
  | stoppedWithText (s : List Char)
deriving DecidableEq, Repr

/-- `StopSequenceConfig`. -/
structure StopSequenceConfig where
  stopTokens : List Nat
  stopSequences : List (List Char)
  visibleStopTokens : List Nat
  visibleStopSequences : List (List Char)

/-- `config.stop_sequences.iter().chain(&config.visible_stop_sequences)`. -/
def StopSequenceConfig.sequences (config : StopSequenceConfig) : List (List Char) :=
  config.stopSequences ++ config.visibleStopSequences

/-- `StopSequenceDecoder`, without the tokenizer. -/
structure StopSequenceDecoder where
  sequence : Sequence
  config : StopSequenceConfig
  jailBuffer : List Char
  stopped : Bool

/-- The first stop string that is found in the buffer, and where. -/
def findStop (sequences : List (List Char)) (buffer : List Char) : Option (List Char × Nat) :=
  sequences.findSome? fun stopSeq => (find stopSeq buffer).map fun pos => (stopSeq, pos)

/-- `for len in (1..=max_len).rev()`: the longest end of the buffer that the stop string
    starts with, if it begins before the best one so far. -/
def longestSuffix (buffer stopSeq : List Char) (best : Option Nat) : Nat → Option (Option Nat)
  | 0 => some best
  | len + 1 =>
    let suffixStart := byteLen buffer - (len + 1)
    if !isCharBoundary buffer suffixStart then longestSuffix buffer stopSeq best len
    else do
      let suffix ← sliceFrom buffer suffixStart
      if suffix.isPrefixOf stopSeq &&
          best.all (fun current => decide (suffixStart < current)) then
        some (some suffixStart)
      else longestSuffix buffer stopSeq best len

/-- The loop over the stop strings. -/
def splitPos (buffer : List Char) : List (List Char) → Option Nat → Option (Option Nat)
  | [], best => some best
  | stopSeq :: rest, best =>
    let stopLen := byteLen stopSeq
    let bufferLen := byteLen buffer
    if stopLen ≤ 1 ∨ bufferLen = 0 then splitPos buffer rest best
    else do
      let best ← longestSuffix buffer stopSeq best (min bufferLen (stopLen - 1))
      splitPos buffer rest best

namespace StopSequenceDecoder

/-- `new`. -/
def new (config : StopSequenceConfig) (skipSpecialTokens : Bool) : StopSequenceDecoder :=
  ⟨Sequence.new skipSpecialTokens, config, [], false⟩

/-- `if output.is_empty() { Held } else { Text(output) }`. -/
def textOrHeld (output : List Char) : SequenceDecoderOutput :=
  if output = [] then .held else .text output

/-- The part behind the end of the buffer that may begin a stop string. -/
def release (d : StopSequenceDecoder) (buffer : List Char) :
    Option (StopSequenceDecoder × SequenceDecoderOutput) := do
  match ← splitPos buffer d.config.sequences none with
  | some pos =>
    let toOutput ← sliceTo buffer pos
    let kept ← sliceFrom buffer pos
    some ({ d with jailBuffer := kept }, textOrHeld toOutput)
  | none => some ({ d with jailBuffer := [] }, textOrHeld buffer)

/-- `process_token` from `jail_buffer.push_str(&new_text)` on. -/
def processText (d : StopSequenceDecoder) (newText : List Char) :
    Option (StopSequenceDecoder × SequenceDecoderOutput) :=
  let buffer := d.jailBuffer ++ newText
  match findStop d.config.stopSequences buffer with
  | some (_, pos) => do
      let output ← sliceTo buffer pos
      some ({ d with stopped := true, jailBuffer := [] },
        if output = [] then .stopped else .stoppedWithText output)
  | none =>
    match findStop d.config.visibleStopSequences buffer with
    | some (stopSeq, pos) => do
        let output ← sliceTo buffer (pos + byteLen stopSeq)
        some ({ d with stopped := true, jailBuffer := [] }, .stoppedWithText output)
    | none => d.release buffer

/-- `process_token`. -/
def processToken (t : Tokenizer) (d : StopSequenceDecoder) (tokenId : Nat) :
    Option (StopSequenceDecoder × SequenceDecoderOutput) :=
  if d.stopped then some (d, .stopped)
  else if d.config.stopTokens.contains tokenId then
    some ({ d with stopped := true, jailBuffer := [] },
      if d.jailBuffer ≠ [] then .stoppedWithText d.jailBuffer else .stopped)
  else if d.config.visibleStopTokens.contains tokenId then
    let stopText := t.decode [tokenId] d.sequence.skipSpecialTokens
    some ({ d with stopped := true, jailBuffer := [] },
      .stoppedWithText (d.jailBuffer ++ stopText))
  else do
    let (sequence, newText) ← d.sequence.appendToken t tokenId
    { d with sequence := sequence }.processText newText

/-- `process_tokens`. -/
def processTokens (t : Tokenizer) : StopSequenceDecoder → List Nat →
    Option (StopSequenceDecoder × List SequenceDecoderOutput)
  | d, [] => some (d, [])
  | d, tokenId :: ids => do
      let (d, output) ← d.processToken t tokenId
      let (d, outputs) ← processTokens t d ids
      return (d, output :: outputs)

/-- `process_token` for a token that is not a stop token and whose text is `piece`. -/
def processPiece (d : StopSequenceDecoder) (piece : List Char) :
    Option (StopSequenceDecoder × SequenceDecoderOutput) :=
  if d.stopped then some (d, .stopped) else d.processText piece

/-- `process_tokens` for the texts of the tokens. -/
def processPieces : StopSequenceDecoder → List (List Char) →
    Option (StopSequenceDecoder × List SequenceDecoderOutput)
  | d, [] => some (d, [])
  | d, piece :: pieces => do
      let (d, output) ← d.processPiece piece
      let (d, outputs) ← processPieces d pieces
      return (d, output :: outputs)

/-- `flush`. -/
def flush (d : StopSequenceDecoder) : StopSequenceDecoder × SequenceDecoderOutput :=
  if d.jailBuffer ≠ [] then ({ d with jailBuffer := [] }, .text d.jailBuffer)
  else (d, .text [])

end StopSequenceDecoder

end SglangInc.Stop
