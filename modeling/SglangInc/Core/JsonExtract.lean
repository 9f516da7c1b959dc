/-!
# JSON in a Text

`JsonParser::extract_json_from_text` of the router's `tool_parser/parsers/json.rs`: the
first JSON object or array in a text that may have other content.

One scan over the characters keeps the brackets that are open, outside of string
literals. When the last one is closed, what is between is returned if it is JSON. What
`serde_json::from_str::<Value>` accepts is a parameter.

Positions count characters. Those of `char_indices` count bytes, and they are where
characters begin, so the slices are the same.
-/

namespace SglangInc.ToolParser

/-- The variables of the loop. -/
structure Scan where
  inString : Bool
  escape : Bool
  stack : List Char
  start : Option Nat

/-- `(open == '{' && ch == '}') || (open == '[' && ch == ']')`. -/
def closes (opener ch : Char) : Bool :=
  opener == '\x7b' && ch == '\x7d' || opener == '[' && ch == ']'

/-- The loop from the position `i` on. The `unwrap` of no position has no result. -/
def scanFrom (isJson : List Char → Bool) (text : List Char) :
    List Char → Nat → Scan → Option (Option (List Char × List Char))
  | [], _, _ => some none
  | ch :: rest, i, s =>
    let next := scanFrom isJson text rest (i + 1)
    if s.escape then next { s with escape := false }
    else if ch = '\\' ∧ s.inString then next { s with escape := true }
    else if ch = '"' then next { s with inString := !s.inString }
    else if s.inString then next s
    else if ch = '\x7b' ∨ ch = '[' then
      next { s with stack := ch :: s.stack, start := some (s.start.getD i) }
    else if ch = '\x7d' ∨ ch = ']' then
      match s.stack with
      | [] => next { s with start := none }
      | opener :: stack =>
        if !closes opener ch then next { s with stack := [], start := none }
        else if stack.isEmpty then do
          let start ← s.start
          let json := (text.take (i + 1)).drop start
          if isJson json then some (some (json, text.take start ++ text.drop (i + 1)))
          else next { s with stack := stack, start := none }
        else next { s with stack := stack }
    else next s

/-- `extract_json_from_text`. -/
def extractJsonFromText (isJson : List Char → Bool) (text : List Char) :
    Option (Option (List Char × List Char)) :=
  scanFrom isJson text text 0 ⟨false, false, [], none⟩

end SglangInc.ToolParser
