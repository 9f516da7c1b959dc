import Mathlib.Algebra.Order.Ring.Int

/-!
# Stop Regexes

The regexes of `stop_regex`, as the lists of tokens that `sre_parse.parse`
returns, and `get_max_seq_length` of `sampling/sampling_params.py`, which goes
through such a list.

What a regex matches is given by the positions of the text at which a match
that starts at a given position can end. `re.search` asks whether there is any,
so the order in which the engine would try them does not matter, and greedy and
lazy repeats are the same.

Patterns are without flags. A set is a list of items as in `sre_parse`, and the
classes of characters behind `\d`, `\s` and `\w` are parameters. Back
references and look-around are left out: they are no bounded regexes to the
source, which counts them as `MAX_LEN`, as it does with `NOT_LITERAL`.
-/

namespace SglangInc.Regex

/-- The classes of characters that `sre` asks the character database for. -/
structure CharClasses where
  isDigit : Char → Bool
  isSpace : Char → Bool
  isWord : Char → Bool

/-- The escapes `\d`, `\s`, `\w` and their negations. -/
inductive Category where
  | digit
  | notDigit
  | space
  | notSpace
  | word
  | notWord
deriving DecidableEq, Repr

/-- An item of a set in brackets. -/
inductive SetItem where
  | literal (c : Char)
  | range (low high : Char)
  | category (cat : Category)
deriving DecidableEq, Repr

/-- The positions that `AT` asks for: `^`, `\A`, `\b`, `\B`, `$` and `\Z`. -/
inductive AtCode where
  | beginning
  | beginningString
  | boundary
  | nonBoundary
  | endOfText
  | endString
deriving DecidableEq, Repr

mutual

/-- A token of a parsed regex. -/
inductive Token where
  | literal (c : Char)
  | notLiteral (c : Char)
  | any
  | inSet (negate : Bool) (items : List SetItem)
  | subpattern (inner : SubPattern)
  | branch (branches : Branches)
  | maxRepeat (min : Nat) (max : Option Nat) (inner : SubPattern)
  | minRepeat (min : Nat) (max : Option Nat) (inner : SubPattern)
  | atCode (code : AtCode)

/-- A sequence of tokens. -/
inductive SubPattern where
  | nil
  | cons (token : Token) (rest : SubPattern)

/-- The alternatives of a `BRANCH`, of which there is at least one. -/
inductive Branches where
  | one (branch : SubPattern)
  | cons (branch : SubPattern) (rest : Branches)

end

/-- `MAX_LEN`. -/
def MAX_LEN : Nat := 2 ^ 30

mutual

/-- What a token adds to `total`. -/
def Token.maxLength : Token → Nat
  | .literal _ => 1
  | .inSet _ _ => 1
  | .any => 1
  | .subpattern inner => inner.maxLength
  | .branch branches => branches.maxLength
  | .maxRepeat _ max inner => repeatLength max inner.maxLength
  | .minRepeat _ max inner => repeatLength max inner.maxLength
  | .atCode _ => 0
  | .notLiteral _ => MAX_LEN

/-- `_max_length_from_subpattern`. -/
def SubPattern.maxLength : SubPattern → Nat
  | .nil => 0
  | .cons token rest => token.maxLength + rest.maxLength

/-- The longest alternative. -/
def Branches.maxLength : Branches → Nat
  | .one branch => branch.maxLength
  | .cons branch rest => max branch.maxLength rest.maxLength

/-- A repeat without a bound is `MAXREPEAT`. -/
def repeatLength (max : Option Nat) (inner : Nat) : Nat :=
  match max with
  | none => MAX_LEN
  | some max => max * inner

end

section Matching

variable (classes : CharClasses)

/-- Whether a character is in the class. -/
def Category.holds (category : Category) (c : Char) : Bool :=
  match category with
  | .digit => classes.isDigit c
  | .notDigit => !classes.isDigit c
  | .space => classes.isSpace c
  | .notSpace => !classes.isSpace c
  | .word => classes.isWord c
  | .notWord => !classes.isWord c

/-- Whether the item has the character. -/
def SetItem.holds (item : SetItem) (c : Char) : Bool :=
  match item with
  | .literal d => c == d
  | .range low high => low ≤ c && c ≤ high
  | .category cat => cat.holds classes c

/-- Whether there is a word character at a position. -/
def wordAt (text : List Char) (i : Nat) : Bool := text[i]?.any classes.isWord

/-- Whether exactly one of the characters around a position is of a word. -/
def boundaryAt (text : List Char) (i : Nat) : Bool :=
  (0 < i && wordAt classes text (i - 1)) != wordAt classes text i

/-- Whether the test holds at a position. Before Python 3.14, `\B` does not match
    the empty text. -/
def AtCode.holds (code : AtCode) (text : List Char) (i : Nat) : Bool :=
  match code with
  | .beginning => i == 0
  | .beginningString => i == 0
  | .boundary => boundaryAt classes text i
  | .nonBoundary => !text.isEmpty && !boundaryAt classes text i
  | .endOfText => i == text.length || (i + 1 == text.length && text[i]? == some '\n')
  | .endString => i == text.length

/-- The end of a match of one character that meets a condition. -/
def oneChar (accepts : Char → Bool) (text : List Char) (i : Nat) : List Nat :=
  if text[i]?.any accepts then [i + 1] else []

/-- The ends after exactly `n` matches in a row. -/
def exactly (ends : Nat → List Nat) : Nat → List Nat → List Nat
  | 0, starts => starts
  | n + 1, starts => exactly ends n (starts.flatMap ends)

/-- The ends after at most `n` matches in a row. -/
def atMost (ends : Nat → List Nat) : Nat → List Nat → List Nat
  | 0, starts => starts
  | n + 1, starts => starts ++ atMost ends n (starts.flatMap ends)

/-- The ends after a repeat. Matches in a row that go on without a bound need
    not be more than the text has characters. -/
def repeated (ends : Nat → List Nat) (min : Nat) (max : Option Nat) (length i : Nat) : List Nat :=
  match max with
  | none => atMost ends length (exactly ends min [i])
  | some max => if min ≤ max then atMost ends (max - min) (exactly ends min [i]) else []

mutual

/-- The positions at which a match of a token that starts at `i` can end. -/
def Token.ends (text : List Char) : Token → Nat → List Nat
  | .literal c, i => oneChar (· == c) text i
  | .notLiteral c, i => oneChar (· != c) text i
  | .any, i => oneChar (· != '\n') text i
  | .inSet negate items, i => oneChar (fun c => items.any (·.holds classes c) != negate) text i
  | .subpattern inner, i => inner.ends text i
  | .branch branches, i => branches.ends text i
  | .maxRepeat min max inner, i => repeated (inner.ends text) min max text.length i
  | .minRepeat min max inner, i => repeated (inner.ends text) min max text.length i
  | .atCode code, i => if code.holds classes text i then [i] else []

/-- Where a match from `i` can end. -/
def SubPattern.ends (text : List Char) : SubPattern → Nat → List Nat
  | .nil, i => [i]
  | .cons token rest, i => (token.ends text i).flatMap (rest.ends text)

/-- The same for the alternatives, in order. -/
def Branches.ends (text : List Char) : Branches → Nat → List Nat
  | .one branch, i => branch.ends text i
  | .cons branch rest, i => branch.ends text i ++ rest.ends text i

end

/-- `re.search`, as far as there is a match. -/
def search (pattern : SubPattern) (text : List Char) : Bool :=
  (List.range (text.length + 1)).any fun i => !(pattern.ends classes text i).isEmpty

end Matching

end SglangInc.Regex
