import SglangInc.Lib.ByteText
import SglangInc.Lib.Utf8

/-!
# Incremental Detokenization in the Router

`tokenizer/sequence.rs` and `tokenizer/stream.rs` of the router: the text of tokens that
come one at a time.

Both keep the tokens and two offsets, decode the tokens from the first offset on with
and without the new ones, and return what the longer text has more. `Sequence` moves its
second offset with every token and `DecodeStream` only when it returns something.

A tokenizer is what it decodes. Its errors are left out. Rust panics when a slice is out
of bounds or cuts a character, and a function that panics has no result here.
-/

namespace SglangInc.Detok

open ByteText

/-- `decode`, with whether special tokens are skipped. -/
structure Tokenizer where
  decode : List Nat → Bool → List Char

/-- A tokenizer whose tokens are byte strings. -/
def byteLevel (bytes : Nat → List Nat) : Tokenizer :=
  ⟨fun ids _ => Utf8.decodeLossy (ids.flatMap bytes)⟩

/-- `&l[i..j]`. -/
def sliceVec (l : List Nat) (i j : Nat) : Option (List Nat) :=
  if i ≤ j ∧ j ≤ l.length then some ((l.take j).drop i) else none

/-- `text.ends_with("�")`. -/
def endsWithReplacement (text : List Char) : Bool := text.getLast? == some Utf8.replacement

/-- `Sequence`, without the tokenizer. -/
structure Sequence where
  tokenIds : List Nat
  prefixOffset : Nat
  readOffset : Nat
  skipSpecialTokens : Bool

namespace Sequence

/-- `new_with_options`. -/
def new (skipSpecialTokens : Bool) : Sequence := ⟨[], 0, 0, skipSpecialTokens⟩

/-- `append_token`. -/
def appendToken (t : Tokenizer) (s : Sequence) (tokenId : Nat) : Option (Sequence × List Char) :=
  let oldReadOffset := s.readOffset
  let tokenIds := s.tokenIds ++ [tokenId]
  let s := { s with tokenIds := tokenIds, readOffset := tokenIds.length }
  if s.prefixOffset = 0 ∧ oldReadOffset = 0 then
    let text := t.decode s.tokenIds s.skipSpecialTokens
    if endsWithReplacement text then some (s, [])
    else some ({ s with prefixOffset := 0 }, text)
  else do
    let prefixText := t.decode (← sliceVec s.tokenIds s.prefixOffset oldReadOffset)
      s.skipSpecialTokens
    let newText := t.decode (← sliceVec s.tokenIds s.prefixOffset s.tokenIds.length)
      s.skipSpecialTokens
    let prefixTextLen := floorCharBoundary newText (byteLen prefixText)
    if byteLen newText > byteLen prefixText then
      if endsWithReplacement newText then some (s, [])
      else do
        let incrementalText ← sliceFrom newText prefixTextLen
        some ({ s with prefixOffset := oldReadOffset },
          incrementalText.filter (· != Utf8.replacement))
    else some (s, [])

/-- The tokens one after the other, and the texts that they return. -/
def appendTokens (t : Tokenizer) : Sequence → List Nat → Option (Sequence × List (List Char))
  | s, [] => some (s, [])
  | s, id :: ids => do
      let (s, text) ← appendToken t s id
      let (s, texts) ← appendTokens t s ids
      return (s, text :: texts)

end Sequence

/-- `DecodeStream`, without the tokenizer. -/
structure DecodeStream where
  allTokenIds : List Nat
  prefixOffset : Nat
  readOffset : Nat
  skipSpecialTokens : Bool

namespace DecodeStream

/-- `INITIAL_INCREMENTAL_DETOKENIZATION_OFFSET`. -/
def initialOffset : Nat := 5

/-- The window starts inside the prompt. -/
def new (promptTokenIds : List Nat) (skipSpecialTokens : Bool) : DecodeStream :=
  ⟨promptTokenIds, promptTokenIds.length - initialOffset, promptTokenIds.length, skipSpecialTokens⟩

/-- `step`: a token, and the text that it completes. -/
def step (t : Tokenizer) (s : DecodeStream) (id : Nat) :
    Option (DecodeStream × Option (List Char)) := do
  let s := { s with allTokenIds := s.allTokenIds ++ [id] }
  let prefixText := t.decode (← sliceVec s.allTokenIds s.prefixOffset s.readOffset)
    s.skipSpecialTokens
  let newText := t.decode (← sliceVec s.allTokenIds s.prefixOffset s.allTokenIds.length)
    s.skipSpecialTokens
  if byteLen newText > byteLen prefixText ∧ !endsWithReplacement newText then do
    let newText ← sliceFrom newText (byteLen prefixText)
    some ({ s with prefixOffset := s.readOffset, readOffset := s.allTokenIds.length },
      some newText)
  else some (s, none)

/-- `step` for each token, and the chunks that it returns. -/
def stepAll (t : Tokenizer) : DecodeStream → List Nat → Option (DecodeStream × List (List Char))
  | s, [] => some (s, [])
  | s, id :: ids => do
      let (s, chunk) ← step t s id
      let (s, chunks) ← stepAll t s ids
      return (s, chunk.toList ++ chunks)

/-- `flush`: what is left at the end. -/
def flush (t : Tokenizer) (s : DecodeStream) : Option (DecodeStream × Option (List Char)) :=
  if s.readOffset < s.allTokenIds.length then do
    let remaining := t.decode (← sliceVec s.allTokenIds s.readOffset s.allTokenIds.length)
      s.skipSpecialTokens
    let s := { s with readOffset := s.allTokenIds.length }
    if remaining ≠ [] then some (s, some remaining) else some (s, none)
  else some (s, none)

end DecodeStream

end SglangInc.Detok
