import SglangInc.Lib.ByteText
import Mathlib.Data.List.Sort

/-!
# The Tokenizer Cache of the Router

`tokenizer/cache/` of the router: the wrapper `CachedTokenizer` with its two caches.

The first cache holds whole texts. The second one holds the tokens of beginnings of texts
that end behind a special token, by a hash of the beginning. When a beginning is found
there, only the rest of the text is encoded.

Offsets are in bytes. A function that panics or does not return has no result here. The
order in which a `DashMap` is iterated is arbitrary: `pick` says which entry is the first
one, for each time one is asked for. Hit and miss counts are left out.
-/

namespace SglangInc.TokenCache

open ByteText

/-- `SpecialTokens`. -/
structure SpecialTokens where
  bosToken : Option (List Char)
  eosToken : Option (List Char)
  unkToken : Option (List Char)
  sepToken : Option (List Char)
  padToken : Option (List Char)
  clsToken : Option (List Char)
  maskToken : Option (List Char)
  additionalSpecialTokens : List (List Char)

/-- The token ids of a text, and the special tokens. -/
structure Tokenizer where
  encode : List Char → List Nat
  specialTokens : SpecialTokens

/-- The special tokens that there are, in the order of the fields. -/
def SpecialTokens.strings (special : SpecialTokens) : List (List Char) :=
  special.bosToken.toList ++ special.eosToken.toList ++ special.unkToken.toList ++
    special.sepToken.toList ++ special.padToken.toList ++ special.clsToken.toList ++
    special.maskToken.toList ++ special.additionalSpecialTokens

/-- `extract_special_token_strings`. -/
def extractSpecialTokenStrings (t : Tokenizer) : List (List Char) := t.specialTokens.strings

/-- `while let Some(pos) = text[start..].find(token)`, for a number of rounds. -/
def boundariesOf (text token : List Char) : Nat → Nat → Option (List Nat)
  | 0, _ => none
  | rounds + 1, start => do
      let tail ← sliceFrom text start
      match find token tail with
      | none => some []
      | some pos =>
        let boundary := start + pos + byteLen token
        let more ← boundariesOf text token rounds boundary
        -- Only boundaries that leave some suffix to tokenize.
        some (if boundary < byteLen text then boundary :: more else more)

/-- The loop over the special tokens. Each round but the last moves `start`, unless the
    token is empty. -/
def allBoundaries (text : List Char) : List (List Char) → Option (List Nat)
  | [] => some []
  | token :: tokens => do
      let one ← boundariesOf text token (byteLen text + 1) 0
      let more ← allBoundaries text tokens
      some (one ++ more)

/-- `boundaries.dedup()`. -/
def dedupAdjacent : List Nat → List Nat
  | [] => []
  | [b] => [b]
  | b :: c :: rest => if b = c then dedupAdjacent (c :: rest) else b :: dedupAdjacent (c :: rest)

/-- `find_special_token_boundaries`. -/
def findSpecialTokenBoundaries (text : List Char) (specialTokens : List (List Char)) :
    Option (List Nat) := do
  let boundaries ← allBoundaries text specialTokens
  some (dedupAdjacent (boundaries.insertionSort (· ≤ ·)))

/-- A `DashMap` as the list of its entries. -/
abbrev DashMap (κ ν : Type) := List (κ × ν)

namespace DashMap

variable {κ ν : Type} [DecidableEq κ]

/-- `get`. -/
def get (m : DashMap κ ν) (k : κ) : Option ν := (m.find? (fun e => e.1 = k)).map (·.2)

/-- `remove`. -/
def remove (m : DashMap κ ν) (k : κ) : DashMap κ ν := m.filter (fun e => e.1 ≠ k)

/-- `insert`, which replaces. -/
def insert (m : DashMap κ ν) (k : κ) (v : ν) : DashMap κ ν := (k, v) :: remove m k

/-- `m.iter().next()`. -/
def first (m : DashMap κ ν) (pick : Nat) : Option (κ × ν) := m[pick % m.length]?

end DashMap

/-- An entry of the cache of beginnings. -/
structure CachedPrefix where
  tokens : List Nat
  lastAccessed : Nat
  sizeBytes : Nat

/-- `NUM_SHARDS`. -/
def numShards : Nat := 16

/-- `size_of::<TokenIdType>()`. -/
def tokenIdSize : Nat := 4

/-- `SAMPLE_SIZE`. -/
def sampleSize : Nat := 32

/-- The hash of a text, and the first byte of a hash. -/
structure Hasher (H : Type) where
  hash : List Char → H
  firstByte : H → Nat

/-- The cache of beginnings, in shards. -/
structure L1Cache (H : Type) where
  shards : Nat → DashMap H CachedPrefix
  maxMemory : Nat
  currentMemory : Nat
  accessCounter : Nat

/-- What `evict_lru` looks at of an entry. -/
structure Sample (H : Type) where
  shardIdx : Nat
  hash : H
  timestamp : Nat

/-- `samples.iter().min_by_key(|(_, _, ts, _)| ts)`: the first of the oldest ones. -/
def oldest {H : Type} : List (Sample H) → Option (Sample H)
  | [] => none
  | s :: rest =>
    match oldest rest with
    | none => some s
    | some s' => if s'.timestamp < s.timestamp then some s' else some s

namespace L1Cache

variable {H : Type} [DecidableEq H]

/-- An empty cache. -/
def new (maxMemory : Nat) : L1Cache H := ⟨fun _ => [], maxMemory, 0, 0⟩

/-- `clear`, which keeps the counter. -/
def clear (c : L1Cache H) : L1Cache H := { c with shards := fun _ => [], currentMemory := 0 }

/-- The number of entries. -/
def len (c : L1Cache H) : Nat := ((List.range numShards).map fun i => (c.shards i).length).sum

/-- `hash_bytes[0] as usize % NUM_SHARDS`. -/
def shardIdx (hasher : Hasher H) (h : H) : Nat := hasher.firstByte h % numShards

/-- The boundaries from the last to the first: the first one whose beginning is cached. -/
def searchBackwards (hasher : Hasher H) (c : L1Cache H) (input : List Char) :
    List Nat → Option (L1Cache H × Option (List Nat × Nat))
  | [] => some (c, none)
  | boundaryPos :: rest => do
      let hash := hasher.hash (← sliceTo input boundaryPos)
      let idx := shardIdx hasher hash
      match DashMap.get (c.shards idx) hash with
      | some entry =>
        let entry := { entry with lastAccessed := c.accessCounter }
        some ({ c with
            shards := Function.update c.shards idx (DashMap.insert (c.shards idx) hash entry)
            accessCounter := c.accessCounter + 1 },
          some (entry.tokens, boundaryPos))
      | none => searchBackwards hasher c input rest

/-- `longest_prefix_match`. -/
def longestPrefixMatch (hasher : Hasher H) (c : L1Cache H) (input : List Char)
    (specialTokens : List (List Char)) : Option (L1Cache H × Option (List Nat × Nat)) := do
  let boundaries ← findSpecialTokenBoundaries input specialTokens
  searchBackwards hasher c input boundaries.reverse

/-- The samples of one round of `evict_lru`. -/
def samples (pick : Nat → Nat) (c : L1Cache H) (iteration : Nat) : List (Sample H) :=
  (List.range sampleSize).filterMap fun i =>
    let idx := (iteration * sampleSize + i) % numShards
    (DashMap.first (c.shards idx) (pick (iteration * sampleSize + i))).map fun e =>
      ⟨idx, e.1, e.2.lastAccessed⟩

/-- The loop of `evict_lru`, for a number of rounds. -/
def evictLoop (pick : Nat → Nat) (spaceNeeded : Nat) :
    Nat → Nat → Nat → L1Cache H → Option (L1Cache H)
  | 0, _, _, _ => none
  | rounds + 1, freed, iteration, c =>
    if freed < spaceNeeded then
      match oldest (samples pick c iteration) with
      | none => some c
      | some s =>
        match DashMap.get (c.shards s.shardIdx) s.hash with
        | some removed =>
          evictLoop pick spaceNeeded rounds (freed + removed.sizeBytes) (iteration + 1)
            { c with
              shards := Function.update c.shards s.shardIdx
                (DashMap.remove (c.shards s.shardIdx) s.hash)
              currentMemory := c.currentMemory - removed.sizeBytes }
        | none => evictLoop pick spaceNeeded rounds freed (iteration + 1) c
    else some c

/-- `evict_lru`. Each round but the last removes an entry. -/
def evictLru (pick : Nat → Nat) (c : L1Cache H) (spaceNeeded : Nat) : Option (L1Cache H) :=
  evictLoop pick spaceNeeded (c.len + 1) 0 0 c

/-- The entry of the beginning that ends at a boundary. -/
def entryAt (hasher : Hasher H) (encode : List Char → List Nat) (input : List Char)
    (boundaryPos : Nat) : Option (H × List Nat × Nat) := do
  let text ← sliceTo input boundaryPos
  let tokens := encode text
  some (hasher.hash text, tokens, boundaryPos + tokens.length * tokenIdSize)

/-- `self.shards[shard_idx].insert(hash_bytes, cached)`. -/
def put (hasher : Hasher H) (c : L1Cache H) (entry : H × List Nat × Nat) : L1Cache H :=
  let (hash, tokens, sizeBytes) := entry
  let idx := shardIdx hasher hash
  { c with
    shards := Function.update c.shards idx
      (DashMap.insert (c.shards idx) hash ⟨tokens, c.accessCounter, sizeBytes⟩)
    currentMemory := c.currentMemory + sizeBytes }

/-- Evict if necessary. -/
def makeRoom (pick : Nat → Nat) (c : L1Cache H) (totalSizeNeeded : Nat) : Option (L1Cache H) :=
  if c.currentMemory + totalSizeNeeded > c.maxMemory then evictLru pick c totalSizeNeeded
  else some c

/-- `insert_at_boundaries`. -/
def insertAtBoundaries (hasher : Hasher H) (pick : Nat → Nat) (c : L1Cache H)
    (input : List Char) (encode : List Char → List Nat) (specialTokens : List (List Char)) :
    Option (L1Cache H) := do
  let boundaries ← findSpecialTokenBoundaries input specialTokens
  let entries ← boundaries.mapM (entryAt hasher encode input)
  if entries.isEmpty then some c
  else do
    let c ← makeRoom pick c (entries.map fun e => e.2.2).sum
    some (entries.foldl (put hasher) c)

end L1Cache

/-- The cache of whole texts. -/
structure L0Cache where
  map : DashMap (List Char) (List Nat)
  maxEntries : Nat

namespace L0Cache

/-- An empty cache. -/
def new (maxEntries : Nat) : L0Cache := ⟨[], maxEntries⟩

/-- `clear`. -/
def clear (c : L0Cache) : L0Cache := { c with map := [] }

/-- `get`. -/
def get (c : L0Cache) (key : List Char) : Option (List Nat) := DashMap.get c.map key

/-- `insert`: at capacity the first entry makes room. -/
def insert (pick : Nat) (c : L0Cache) (key : List Char) (value : List Nat) : L0Cache :=
  let map :=
    if c.map.length ≥ c.maxEntries then
      match DashMap.first c.map pick with
      | some entry => DashMap.remove c.map entry.1
      | none => c.map
    else c.map
  { c with map := DashMap.insert map key value }

end L0Cache

/-- `CacheConfig`. -/
structure CacheConfig where
  enableL0 : Bool
  l0MaxEntries : Nat
  enableL1 : Bool
  l1MaxMemory : Nat

/-- The wrapper, with the caches that are switched on. -/
structure CachedTokenizer (H : Type) where
  inner : Tokenizer
  l0 : Option L0Cache
  l1 : Option (L1Cache H)
  specialTokenStrings : List (List Char)

/-- What is arbitrary in one call: the first entries of the maps. -/
structure Order where
  l0 : Nat
  l1 : Nat → Nat

namespace CachedTokenizer

variable {H : Type} [DecidableEq H]

/-- `new`. -/
def new (inner : Tokenizer) (config : CacheConfig) : CachedTokenizer H where
  inner := inner
  l0 := if config.enableL0 then some (L0Cache.new config.l0MaxEntries) else none
  l1 := if config.enableL1 then some (L1Cache.new config.l1MaxMemory) else none
  specialTokenStrings := extractSpecialTokenStrings inner

/-- `clear_cache`. -/
def clearCache (t : CachedTokenizer H) : CachedTokenizer H :=
  { t with l0 := t.l0.map L0Cache.clear, l1 := t.l1.map L1Cache.clear }

/-- `if let Some(l0) = &self.l0 { l0.insert(..) }`. -/
def remember (t : CachedTokenizer H) (order : Order) (input : List Char) (ids : List Nat) :
    CachedTokenizer H :=
  { t with l0 := t.l0.map fun l0 => L0Cache.insert order.l0 l0 input ids }

/-- The lookup in the cache of beginnings. -/
def prefixMatch (hasher : Hasher H) (t : CachedTokenizer H) (input : List Char) :
    Option (CachedTokenizer H × Option (List Nat × Nat)) :=
  match t.l1 with
  | none => some (t, none)
  | some l1 => do
      let (l1, found) ← l1.longestPrefixMatch hasher input t.specialTokenStrings
      some ({ t with l1 := some l1 }, found)

/-- Full tokenization, and its caching. -/
def encodeFull (hasher : Hasher H) (t : CachedTokenizer H) (order : Order) (input : List Char) :
    Option (CachedTokenizer H × List Nat) := do
  let ids := t.inner.encode input
  let t := t.remember order input ids
  match t.l1 with
  | none => some (t, ids)
  | some l1 =>
    let l1 ← l1.insertAtBoundaries hasher order.l1 input t.inner.encode t.specialTokenStrings
    some ({ t with l1 := some l1 }, ids)

/-- `encode` after a miss in the cache of whole texts. -/
def encodeMiss (hasher : Hasher H) (t : CachedTokenizer H) (order : Order) (input : List Char) :
    Option (CachedTokenizer H × List Nat) := do
  let (t, found) ← t.prefixMatch hasher input
  match found with
  | some (prefixTokens, prefixLen) =>
    let suffix ← sliceFrom input prefixLen
    if suffix ≠ [] then
      let merged := prefixTokens ++ t.inner.encode suffix
      some (t.remember order input merged, merged)
    else t.encodeFull hasher order input
  | none => t.encodeFull hasher order input

/-- `encode`. -/
def encode (hasher : Hasher H) (t : CachedTokenizer H) (order : Order) (input : List Char) :
    Option (CachedTokenizer H × List Nat) :=
  match t.l0.bind fun l0 => l0.get input with
  | some cached => some (t, cached)
  | none => t.encodeMiss hasher order input

end CachedTokenizer

/-- A call of the tokenizer. -/
inductive Call where
  | encode (input : List Char) (order : Order)
  | clear

namespace CachedTokenizer

variable {H : Type} [DecidableEq H]

/-- One call, and the tokens that it returns. -/
def call (hasher : Hasher H) (t : CachedTokenizer H) :
    Call → Option (CachedTokenizer H × Option (List Nat))
  | .encode input order => do
      let (t, ids) ← t.encode hasher order input
      some (t, some ids)
  | .clear => some (t.clearCache, none)

/-- Calls one after the other. -/
def calls (hasher : Hasher H) : CachedTokenizer H → List Call →
    Option (CachedTokenizer H × List (Option (List Nat)))
  | t, [] => some (t, [])
  | t, c :: cs => do
      let (t, ids) ← t.call hasher c
      let (t, more) ← calls hasher t cs
      some (t, ids :: more)

end CachedTokenizer

end SglangInc.TokenCache
