import SglangInc.Core.Detokenize
import Mathlib.Data.List.DropRight

/-!
# The Detokenizer Manager

`handle_batch_token_id_out` of `detokenizer_manager.py`, for one request of the batches: a
request's entries are handled apart from those of the others. The status of a request is
not evicted here.
-/

namespace SglangInc.Detok

/-- `_is_chinese_char`. -/
def isChineseChar (c : Char) : Bool :=
  [(0x4E00, 0x9FFF), (0x3400, 0x4DBF), (0x20000, 0x2A6DF), (0x2A700, 0x2B73F), (0x2B740, 0x2B81F),
    (0x2B820, 0x2CEAF), (0xF900, 0xFAFF), (0x2F800, 0x2FA1F)].any
    fun (first, last) => first ≤ c.toNat && c.toNat ≤ last

/-- `find_printable_text`: the part that later tokens will not change. -/
def findPrintableText (text : List Char) : List Char :=
  if text.getLast? = some '\n' then text
  else if text.getLast?.any isChineseChar then text
  else if text.dropLast.getLast?.any isChineseChar then text.dropLast
  else text.rdropWhile (· ≠ ' ')

/-- The `matched` of a finish reason. -/
inductive Matched where
  | str (stop : List Char)
  | int (stop : Nat)

/-- What a `BatchTokenIDOutput` has for the request. -/
structure TokenIDOutput where
  decodedText : List Char
  decodeIds : List Nat
  readOffset : Nat
  finishedReason : Option (Option Matched)
  noStopTrim : Bool
  skipSpecialTokens : Bool

/-- `text.find(stop)`. -/
def findStr (stop text : List Char) : Option Nat := text.tails.findIdx? stop.isPrefixOf

namespace TokenIDOutput

variable (m : TokenIDOutput)

/-- The stop that is to be trimmed. -/
def trimmed : Option Matched := if m.noStopTrim then none else m.finishedReason.join

/-- `trim_matched_stop` of a text. -/
def trimText (output : List Char) : List Char :=
  match m.trimmed with
  | some (.str stop) =>
    if stop = [] then output else output.take ((findStr stop output).getD output.length)
  | _ => output

/-- `trim_matched_stop` of tokens. The last one is the stop token, so there is one. -/
def trimIds (isToolCallParserGptOss : Bool) (output : List Nat) : List Nat :=
  match m.trimmed with
  | some (.int stop) =>
    if stop = 0 ∨ (output.getLast? = some 200012 ∧ isToolCallParserGptOss) then output
    else output.dropLast
  | _ => output

end TokenIDOutput

/-- `DecodeStatus`. -/
structure DecodeStatus where
  decodedText : List Char
  decodeIds : List Nat
  surrOffset : Nat
  readOffset : Nat
  sentOffset : Nat := 0

/-- The status with the tokens of a message, or a new one. -/
def DecodeStatus.received (s : Option DecodeStatus) (m : TokenIDOutput) : DecodeStatus :=
  match s with
  | none => { decodedText := m.decodedText, decodeIds := m.decodeIds, surrOffset := 0
              readOffset := m.readOffset }
  | some s => { s with decodeIds := s.decodeIds ++ m.decodeIds }

/-- `read_texts[i][len(surr_texts[i]) :]`. -/
def DecodeStatus.newText (t : Tokenizer) (gptOss : Bool) (s : DecodeStatus) (m : TokenIDOutput) :
    List Char :=
  let readIds := m.trimIds gptOss (s.decodeIds.drop s.surrOffset)
  let surrIds := (s.decodeIds.take s.readOffset).drop s.surrOffset
  (t.decode readIds m.skipSpecialTokens).drop (t.decode surrIds m.skipSpecialTokens).length

/-- The status after a message, and what is sent for it. -/
def handleTokenIdOut (t : Tokenizer) (gptOss : Bool) (s : Option DecodeStatus)
    (m : TokenIDOutput) : Option DecodeStatus × List Char :=
  let s := DecodeStatus.received s m
  let newText := s.newText t gptOss m
  let (s, newText) :=
    if m.finishedReason.isSome then (s, newText)
    else if newText ≠ [] ∧ !endsWithReplacement newText then
      ({ s with
          decodedText := s.decodedText ++ newText
          surrOffset := s.readOffset
          readOffset := s.decodeIds.length }, [])
    else (s, findPrintableText newText)
  let outputStr := m.trimText (s.decodedText ++ newText)
  (if m.finishedReason.isSome then none else some { s with sentOffset := outputStr.length },
    outputStr.drop s.sentOffset)

/-- A request at the manager: its status, the tokens that came and the text that went. -/
structure Feed where
  status : Option DecodeStatus
  ids : List Nat
  sent : List Char

/-- One message of the request. -/
def Feed.next (t : Tokenizer) (gptOss : Bool) (s : Feed) (m : TokenIDOutput) : Feed :=
  let (status, outputStr) := handleTokenIdOut t gptOss s.status m
  ⟨status, s.ids ++ m.decodeIds, s.sent ++ outputStr⟩

end SglangInc.Detok
