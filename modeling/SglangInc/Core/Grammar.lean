import Mathlib.Logic.Function.Basic

/-!
# Grammars for Constrained Decoding

`constrained/xgrammar_backend.py`, `constrained/reasoner_grammar_backend.py` and the
masks of a draft tree in `speculative/spec_utils.py`.

A grammar object reads the tokens of a request and says which ones may come next. The
matcher of `xgrammar` is a library: here it is the list of the tokens it has accepted,
and `CompiledGrammar` says which tokens are allowed after such a list and whether it
has terminated. How many tokens it can take back is not bounded.

A bit mask has one row for each draft token, packed into words of 32 bits, and bit
`i % 32` of word `i / 32` is token `i`. A row that is written is written as a whole.

The recursion of `traverse_tree` is counted, and the count is the depth it may reach.
-/

namespace SglangInc.Grammar

/-- What the calls raise. -/
inductive Error where
  /-- `Tokens not accepted`, with the tokens that were and the key of the grammar. -/
  | valueError (token : Nat) (acceptedTokens : List Nat) (keyString : Option String)
  /-- The matcher has no mask after its end, and no more tokens than it has accepted. -/
  | matcherError
  | indexError
  | recursionError
deriving DecidableEq, Repr

/-- A tensor of `numRows` rows of `numWords` words. -/
structure Bitmask where
  numRows : Nat
  numWords : Nat
  row : Nat → Nat → BitVec 32

/-- The row of a set of tokens. -/
def maskRow (allowed : Nat → Bool) (word : Nat) : BitVec 32 :=
  (BitVec.ofBoolListLE ((List.range 32).map fun bit => allowed (32 * word + bit))).setWidth 32

namespace Bitmask

/-- `allocate_token_bitmask`, which allows every token. -/
def allocate (batchSize vocabSize : Nat) : Bitmask :=
  ⟨batchSize, (vocabSize + 31) / 32, fun _ _ => BitVec.allOnes 32⟩

/-- A row of the mask, from what is allowed. -/
def fill (mask : Bitmask) (idx : Nat) (allowed : Nat → Bool) : Bitmask :=
  { mask with row := Function.update mask.row idx (maskRow allowed) }

/-- `mask[pos][word]`, where a negative position counts from the end. -/
def read (mask : Bitmask) (pos : Int) (word : Nat) : Except Error (BitVec 32) :=
  if word < mask.numWords then
    .ok (mask.row (if pos < 0 then (mask.numRows + pos).toNat else pos.toNat) word)
  else .error .indexError

/-- `mask[start : start + len]`. It has no other rows. -/
def slice (mask : Bitmask) (start len : Nat) : Bitmask :=
  { mask with
    numRows := len
    row := fun r => if r < len then mask.row (start + r) else fun _ => 0#32 }

/-- The mask after a slice of it has been written. -/
def assign (mask : Bitmask) (start : Nat) (part : Bitmask) : Bitmask :=
  { mask with row := fun r =>
      if start ≤ r ∧ r < start + part.numRows then part.row (r - start) else mask.row r }

end Bitmask

/-- The methods of a grammar object. -/
class BaseGrammarObject (γ : Type) where
  acceptToken : γ → Nat → Except Error γ
  rollback : γ → Nat → Except Error γ
  isTerminated : γ → Bool
  allocateVocabMask : γ → Nat → Nat → Bitmask
  fillVocabMask : γ → Bitmask → Nat → Except Error Bitmask
  copy : γ → γ

/-- What the matcher knows of a grammar. -/
structure CompiledGrammar where
  allowed : List Nat → Nat → Bool
  terminated : List Nat → Bool

/-- The object around a matcher. -/
structure XGrammarGrammar where
  /-- The tokens that the matcher has accepted. -/
  matcher : List Nat
  ctx : CompiledGrammar
  acceptedTokens : List Nat
  keyString : Option String

namespace XGrammarGrammar

/-- `is_terminated`. -/
def isTerminated (g : XGrammarGrammar) : Bool := g.ctx.terminated g.matcher

/-- `accept_token`. A token after the end is ignored. -/
def acceptToken (g : XGrammarGrammar) (token : Nat) : Except Error XGrammarGrammar :=
  if !g.isTerminated then
    let accepted := g.ctx.allowed g.matcher token
    if !accepted then .error (.valueError token g.acceptedTokens g.keyString)
    else
      .ok { g with
        matcher := g.matcher ++ [token]
        acceptedTokens := g.acceptedTokens ++ [token] }
  else .ok g

/-- `l[:-k]`, which is empty for 0. -/
def dropEnd (l : List Nat) (k : Nat) : List Nat := if k = 0 then [] else l.take (l.length - k)

/-- `rollback`. -/
def rollback (g : XGrammarGrammar) (k : Nat) : Except Error XGrammarGrammar :=
  if k ≤ g.matcher.length then
    .ok { g with
      matcher := g.matcher.take (g.matcher.length - k)
      acceptedTokens := dropEnd g.acceptedTokens k }
  else .error .matcherError

/-- `fill_vocab_mask`. -/
def fillVocabMask (g : XGrammarGrammar) (vocabMask : Bitmask) (idx : Nat) : Except Error Bitmask :=
  if g.isTerminated then .error .matcherError
  else .ok (vocabMask.fill idx (g.ctx.allowed g.matcher))

/-- A new object for the same grammar. -/
def copy (g : XGrammarGrammar) : XGrammarGrammar :=
  { g with matcher := [], acceptedTokens := [] }

instance : BaseGrammarObject XGrammarGrammar where
  acceptToken := acceptToken
  rollback := rollback
  isTerminated := isTerminated
  allocateVocabMask := fun _ vocabSize batchSize => Bitmask.allocate batchSize vocabSize
  fillVocabMask := fillVocabMask
  copy := copy

end XGrammarGrammar

/-- The object around an object, for text with a thinking part. -/
structure ReasonerGrammarObject (γ : Type) where
  grammar : γ
  thinkEndId : Nat
  /-- -1 before the end of thinking, then the number of tokens after it. -/
  tokensAfterThinkEnd : Int

namespace ReasonerGrammarObject

variable {γ : Type} [BaseGrammarObject γ]

open BaseGrammarObject

/-- `ReasonerGrammarObject(grammar, think_end_id)`. -/
def new (grammar : γ) (thinkEndId : Nat) : ReasonerGrammarObject γ := ⟨grammar, thinkEndId, -1⟩

/-- `transfer_state`: the count after a token. -/
def transferState (r : ReasonerGrammarObject γ) (token : Nat) : ReasonerGrammarObject γ :=
  if r.tokensAfterThinkEnd = -1 ∧ token = r.thinkEndId then { r with tokensAfterThinkEnd := 0 }
  else if r.tokensAfterThinkEnd ≥ 0 then
    { r with tokensAfterThinkEnd := r.tokensAfterThinkEnd + 1 }
  else r

/-- `rollback_state`: the count before it. -/
def rollbackState (r : ReasonerGrammarObject γ) : ReasonerGrammarObject γ :=
  if r.tokensAfterThinkEnd = 0 then { r with tokensAfterThinkEnd := -1 }
  else if r.tokensAfterThinkEnd > 0 then
    { r with tokensAfterThinkEnd := r.tokensAfterThinkEnd - 1 }
  else r

/-- `accept_token`. The inner object sees what comes after thinking. -/
def acceptToken (r : ReasonerGrammarObject γ) (token : Nat) :
    Except Error (ReasonerGrammarObject γ) :=
  if r.tokensAfterThinkEnd ≥ 0 then
    match BaseGrammarObject.acceptToken r.grammar token with
    | .ok grammar => .ok (transferState { r with grammar := grammar } token)
    | .error e => .error e
  else .ok (r.transferState token)

/-- `rollback_state`, `k` times. -/
def rollbackStates (r : ReasonerGrammarObject γ) : Nat → ReasonerGrammarObject γ
  | 0 => r
  | k + 1 => rollbackStates r.rollbackState k

/-- `rollback`, inside for the tokens after thinking only. -/
def rollback (r : ReasonerGrammarObject γ) (k : Nat) : Except Error (ReasonerGrammarObject γ) :=
  let stepsAfterThink := min (k : Int) r.tokensAfterThinkEnd
  if stepsAfterThink > 0 then
    match BaseGrammarObject.rollback r.grammar stepsAfterThink.toNat with
    | .ok grammar => .ok (rollbackStates { r with grammar := grammar } k)
    | .error e => .error e
  else .ok (r.rollbackStates k)

/-- `fill_vocab_mask`. All tokens are allowed while thinking. -/
def fillVocabMask (r : ReasonerGrammarObject γ) (vocabMask : Bitmask) (idx : Nat) :
    Except Error Bitmask :=
  if r.tokensAfterThinkEnd ≥ 0 then
    BaseGrammarObject.fillVocabMask r.grammar vocabMask idx
  else .ok vocabMask

/-- `copy`, which starts before the end of thinking. -/
def copy (r : ReasonerGrammarObject γ) : ReasonerGrammarObject γ :=
  new (BaseGrammarObject.copy r.grammar) r.thinkEndId

/-- `is_terminated` is the one of the base class. -/
instance : BaseGrammarObject (ReasonerGrammarObject γ) where
  acceptToken := acceptToken
  rollback := rollback
  isTerminated := fun _ => false
  allocateVocabMask := fun r => BaseGrammarObject.allocateVocabMask r.grammar
  fillVocabMask := fillVocabMask
  copy := copy

end ReasonerGrammarObject

section Traverse

/-- The draft tokens of a request. -/
structure DraftTree where
  retrieveNextToken : Nat → Int
  retrieveNextSibling : Nat → Int
  draftTokens : Nat → Nat

variable {γ : Type} [BaseGrammarObject γ]

open BaseGrammarObject

/-- The bit of `token` is set in a word of type `int32`, which an operation with an
    `int64` widens. -/
def testBit (word : BitVec 32) (token : Nat) : Bool :=
  (word.signExtend 64 &&& (1#64 <<< (token % 32))) != 0#64

namespace DraftTree

variable (t : DraftTree)

/-- Node 0 is accepted, any other one if the row of its parent has its token. -/
def accepted (mask : Bitmask) (curr : Nat) (parentPos : Int) : Except Error Bool :=
  if curr = 0 then .ok true
  else
    match mask.read parentPos (t.draftTokens curr / 32) with
    | .ok word => .ok (testBit word (t.draftTokens curr))
    | .error e => .error e

/-- The row of a node, and what is below it, unless the grammar has terminated. `child`
    goes on below. -/
def fillRow (child : γ → Bitmask → Except Error (γ × Bitmask)) (curr : Nat) (grammar : γ)
    (mask : Bitmask) : Except Error (γ × Bitmask) :=
  if !isTerminated grammar then
    match fillVocabMask grammar mask curr with
    | .ok mask =>
      if t.retrieveNextToken curr ≠ -1 then child grammar mask else .ok (grammar, mask)
    | .error e => .error e
  else .ok (grammar, mask)

/-- A node that is accepted. The token of node 0 has been read before. -/
def visit (child : γ → Bitmask → Except Error (γ × Bitmask)) (curr : Nat) (grammar : γ)
    (mask : Bitmask) : Except Error (γ × Bitmask) :=
  if curr ≠ 0 then do
    let grammar ← acceptToken grammar (t.draftTokens curr)
    let (grammar, mask) ← t.fillRow child curr grammar mask
    return (← rollback grammar 1, mask)
  else t.fillRow child curr grammar mask

/-- A node that is visited only if it is accepted. -/
def visitIf (accepted : Bool) (child : γ → Bitmask → Except Error (γ × Bitmask)) (curr : Nat)
    (grammar : γ) (mask : Bitmask) : Except Error (γ × Bitmask) :=
  if accepted then t.visit child curr grammar mask else .ok (grammar, mask)

/-- `dfs` of `traverse_tree`, with Python's recursion limit. -/
def dfs : Nat → Nat → Int → γ → Bitmask → Except Error (γ × Bitmask)
  | 0, _, _, _, _ => .error .recursionError
  | depth + 1, curr, parentPos, grammar, mask => do
      let accepted ← t.accepted mask curr parentPos
      let (grammar, mask) ← t.visitIf accepted
        (dfs depth (t.retrieveNextToken curr).toNat curr) curr grammar mask
      if t.retrieveNextSibling curr ≠ -1 then
        dfs depth (t.retrieveNextSibling curr).toNat parentPos grammar mask
      else .ok (grammar, mask)

end DraftTree

/-- The masks of a draft tree. -/
def traverseTree (depth : Nat) (t : DraftTree) (grammar : γ) (mask : Bitmask) :
    Except Error (γ × Bitmask) :=
  t.dfs depth 0 (-1) grammar mask

/-- What the loop over the requests has so far: the grammars behind it, the mask once it
    is allocated, and the last grammar. -/
structure BatchMask (γ : Type) where
  grammars : List (Option γ)
  allocateTokenBitmask : Option Bitmask
  grammar : Option γ

/-- The loop of `generate_token_bitmask` from request `i` on. -/
def maskRequests (depth vocabSize batchSize numDraftTokens : Nat) (trees : Nat → DraftTree) :
    Nat → List (Option γ) → BatchMask γ → Except Error (BatchMask γ)
  | _, [], out => .ok out
  | i, none :: reqs, out =>
    maskRequests depth vocabSize batchSize numDraftTokens trees (i + 1) reqs
      { out with grammars := out.grammars ++ [none] }
  | i, some grammar :: reqs, out =>
    let mask := out.allocateTokenBitmask.getD
      (allocateVocabMask grammar vocabSize (batchSize * numDraftTokens))
    match traverseTree depth (trees i) grammar
        (mask.slice (i * numDraftTokens) numDraftTokens) with
    | .ok (grammar, part) =>
      maskRequests depth vocabSize batchSize numDraftTokens trees (i + 1) reqs
        ⟨out.grammars ++ [some grammar], some (mask.assign (i * numDraftTokens) part), some grammar⟩
    | .error e => .error e

/-- The masks of a batch. -/
def generateTokenBitmask (depth vocabSize numDraftTokens : Nat) (trees : Nat → DraftTree)
    (reqs : List (Option γ)) : Except Error (BatchMask γ) :=
  maskRequests depth vocabSize reqs.length numDraftTokens trees 0 reqs ⟨[], none, none⟩

end Traverse

end SglangInc.Grammar
