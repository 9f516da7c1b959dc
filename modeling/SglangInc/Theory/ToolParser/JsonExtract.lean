import SglangInc.Core.JsonExtract

/-!
# The First JSON Value of a Text

When `extract_json_from_text` finds the object or array behind a prose without brackets
(`extract_iff_literalsClosed`).

The scan looks for string literals in the prose as well. When the prose leaves none open
it goes over the value as over one pair of brackets (`Nested.skipped`) and returns it. When
the prose leaves one open, as an inch mark does, the brackets of the value are characters
of that literal and nothing is found.

Of the JSON grammar only this is used: string literals are closed, and the brackets
outside of them match (`Container`). Which of these texts are JSON is for `isJson` to say.
-/

namespace SglangInc.ToolParser

open List

/-- The characters that the scan counts outside of literals. -/
def brackets : List Char := ['\x7b', '\x7d', '[', ']']

/-- What is between the quotes of a string literal. -/
inductive Characters : List Char → Prop
  | nil : Characters []
  | plain {c t} : c ≠ '"' → c ≠ '\\' → Characters t → Characters (c :: t)
  | escape {c t} : Characters t → Characters ('\\' :: c :: t)

/-- String literals are closed, and the brackets outside of them match. -/
inductive Nested : List Char → Prop
  | nil : Nested []
  | plain {c t} : c ∉ '"' :: brackets → Nested t → Nested (c :: t)
  | string {t u} : Characters t → Nested u → Nested ('"' :: (t ++ '"' :: u))
  | pair {opener closer t u} : closes opener closer = true → Nested t → Nested u →
      Nested (opener :: (t ++ closer :: u))

/-- One pair of brackets, as an object or an array. -/
def Container (j : List Char) : Prop :=
  ∃ opener t closer, closes opener closer = true ∧ Nested t ∧ j = opener :: (t ++ [closer])

/-- No string literal is open at the end of a text that begins inside of one or outside. In
    a literal a backslash takes the next character with it. -/
def literalsClosed : Bool → List Char → Bool
  | inside, [] => !inside
  | inside, c :: t =>
    if c = '\\' ∧ inside = true then
      match t with
      | [] => false
      | _ :: t => literalsClosed true t
    else if c = '"' then literalsClosed (!inside) t
    else literalsClosed inside t

variable {isJson : List Char → Bool} {text t rest stack a : List Char} {opener closer : Char}
  {start : Option Nat} {i : Nat}

theorem closes_iff : closes opener closer = true ↔
    opener = '\x7b' ∧ closer = '\x7d' ∨ opener = '[' ∧ closer = ']' := by
  simp [closes]

/-- The characters of a literal, and the quote behind them. -/
theorem Characters.scan (h : Characters t) :
    scanFrom isJson text (t ++ '"' :: rest) i ⟨true, false, stack, start⟩ =
    scanFrom isJson text rest (i + (t.length + 1)) ⟨false, false, stack, start⟩ := by
  induction h generalizing i with
  | nil => simp [scanFrom]
  | plain hq hb _ ih => simp [scanFrom, hq, hb, ih, Nat.add_assoc, Nat.add_comm 1]
  | escape _ ih => simp [scanFrom, ih, Nat.add_assoc, Nat.add_comm 2]

/-- What the scan does on a text inside of a bracket: it comes out as it went in. -/
theorem Nested.skipped (h : Nested t) {start : Nat} :
    scanFrom isJson text (t ++ rest) i ⟨false, false, opener :: stack, some start⟩ =
    scanFrom isJson text rest (i + t.length) ⟨false, false, opener :: stack, some start⟩ := by
  induction h generalizing i rest opener stack with
  | nil => rfl
  | plain hc _ ih =>
    simp only [brackets, mem_cons, not_mem_nil, or_false, not_or] at hc
    simp [scanFrom, hc, ih, Nat.add_assoc, Nat.add_comm 1]
  | string ht _ ih =>
    simp [scanFrom, ht.scan, ih]
    congr 1
    omega
  | pair hc _ _ iht ihu =>
    rcases closes_iff.mp hc with ⟨rfl, rfl⟩ | ⟨rfl, rfl⟩ <;>
      simp [scanFrom, closes, iht, ihu] <;> congr 1 <;> omega

/-- A value that no other bracket is around, and that the scan comes to outside of a
    literal. -/
theorem Container.scan {j c : List Char} (h : Container j) (hok : isJson j = true) :
    scanFrom isJson (a ++ (j ++ c)) (j ++ c) a.length ⟨false, false, [], none⟩ =
      some (some (j, a ++ c)) := by
  obtain ⟨opener, t, closer, hc, ht, rfl⟩ := h
  have hall : t.take (t.length + 1) = t := take_of_length_le (Nat.le_succ _)
  rcases closes_iff.mp hc with ⟨rfl, rfl⟩ | ⟨rfl, rfl⟩ <;>
    simp [scanFrom, ht.skipped, closes, hok, hall, take_append, Nat.add_assoc, Nat.add_comm 1]

/-- After a prose the scan is outside of literals if the prose leaves none open, and else
    inside of one, maybe behind its last backslash. -/
theorem scan_prose (isJson : List Char → Bool) (text : List Char) (ha : ∀ c ∈ a, c ∉ brackets)
    (inside : Bool) : ∃ inside' escape, (∀ i rest,
      scanFrom isJson text (a ++ rest) i ⟨inside, false, [], none⟩ =
        scanFrom isJson text rest (i + a.length) ⟨inside', escape, [], none⟩) ∧
      if literalsClosed inside a then inside' = false ∧ escape = false else inside' = true := by
  fun_induction literalsClosed inside a with
  | case1 inside =>
    refine ⟨inside, false, fun i rest => rfl, ?_⟩
    cases inside with
    | false => exact ⟨rfl, rfl⟩
    | true => rfl
  | case2 inside c hc =>
    obtain ⟨rfl, rfl⟩ := hc
    exact ⟨true, true, fun i rest => by simp [scanFrom], rfl⟩
  | case3 inside c hc d t ih =>
    -- The backslash takes the next character with it.
    obtain ⟨rfl, rfl⟩ := hc
    obtain ⟨inside', escape, hscan, hend⟩ := ih fun c hc => ha c (by simp [hc])
    refine ⟨inside', escape, fun i rest => ?_, hend⟩
    simp [scanFrom, hscan, Nat.add_assoc, Nat.add_comm 2]
  | case4 inside t hesc ih =>
    obtain ⟨inside', escape, hscan, hend⟩ := ih fun c hc => ha c (mem_cons_of_mem _ hc)
    refine ⟨inside', escape, fun i rest => ?_, hend⟩
    simp [scanFrom, hscan, Nat.add_assoc, Nat.add_comm 1]
  | case5 inside c t hesc hquote ih =>
    -- No bracket, so the character changes nothing inside of a literal or outside.
    have hc := ha c mem_cons_self
    simp only [brackets, mem_cons, not_mem_nil, or_false, not_or] at hc
    obtain ⟨inside', escape, hscan, hend⟩ := ih fun c hc => ha c (mem_cons_of_mem _ hc)
    refine ⟨inside', escape, fun i rest => ?_, hend⟩
    cases inside with
    | false => simp [scanFrom, hquote, hc, hscan, Nat.add_assoc, Nat.add_comm 1]
    | true =>
      have hslash : c ≠ '\\' := fun heq => hesc ⟨heq, rfl⟩
      simp [scanFrom, hquote, hslash, hscan, Nat.add_assoc, Nat.add_comm 1]

/-- Behind a prose without brackets the object or array is found, whatever it is and whatever
    follows it, if and only if the prose leaves no string literal open. -/
theorem extract_iff_literalsClosed (isJson : List Char → Bool)
    (hempty : isJson ['\x7b', '\x7d'] = true) (a : List Char) (ha : ∀ c ∈ a, c ∉ brackets) :
    (∀ j c, Container j → isJson j = true →
      extractJsonFromText isJson (a ++ j ++ c) = some (some (j, a ++ c))) ↔
    literalsClosed false a = true := by
  constructor
  · intro h
    have hfound := h _ [] ⟨'\x7b', [], '\x7d', rfl, .nil, rfl⟩ hempty
    obtain ⟨inside', escape, hscan, hend⟩ :=
      scan_prose isJson (a ++ ['\x7b', '\x7d']) ha false
    rw [extractJsonFromText, append_nil, nil_append, hscan] at hfound
    cases hopen : literalsClosed false a with
    | true => rfl
    | false =>
      -- Inside of a literal the two brackets are characters.
      rw [hopen, if_neg Bool.false_ne_true] at hend
      cases escape with
      | false | true => simp [scanFrom, hend] at hfound
  · intro hclosed j c hj hok
    obtain ⟨inside', escape, hscan, hend⟩ := scan_prose isJson (a ++ (j ++ c)) ha false
    rw [if_pos hclosed] at hend
    rw [append_assoc, extractJsonFromText, hscan, hend.1, hend.2, Nat.zero_add, hj.scan hok]

/-- An object with a key and an array, behind a quoted word. -/
theorem extract_iff_literalsClosed_quoted :
    let j := ['\x7b', '"', 'a', '"', ':', '[', '1', ']', '\x7d']
    extractJsonFromText (fun t => t == ['\x7b', '\x7d'] || t == j) (['"', 'x', '"'] ++ j ++ ['.']) =
      some (some (j, ['"', 'x', '"', '.'])) := by
  intro j
  have hkey : Characters ['a'] := .plain (by decide) (by decide) .nil
  have harray : Nested ['[', '1', ']'] := .pair rfl (.plain (by decide) .nil) .nil
  have hj : Container j := ⟨'\x7b', _, '\x7d', rfl, .string hkey (.plain (by decide) harray), rfl⟩
  exact (extract_iff_literalsClosed (fun t => t == ['\x7b', '\x7d'] || t == j) rfl ['"', 'x', '"']
    (by simp [brackets])).mpr rfl j ['.'] hj (by simp)

/-- An inch mark in the prose hides the object. -/
theorem extract_misses_behind_quote :
    Container ['\x7b', '\x7d'] ∧ (∀ c ∈ ['5', '"', ' '], c ∉ brackets) ∧
    extractJsonFromText (· == ['\x7b', '\x7d']) ['5', '"', ' ', '\x7b', '\x7d'] = some none :=
  ⟨⟨'\x7b', [], '\x7d', rfl, .nil, rfl⟩, by simp [brackets], by decide⟩

end SglangInc.ToolParser
