import SglangInc.Lib.ByteText
import SglangInc.Lib.Utf8

/-!
# Decoding of Encoded Texts

The UTF-8 form of a text, and what the lossy decoder makes of it and of its beginnings.

Inside a character the decoder holds back what it has read, and at its end it puts the
character out. So behind the first bytes of an encoded text it has put out the
characters that are complete, and it is between characters where the text has a
boundary.

## Theorems

* `Spells.decode`, `Spells.decode_take`: A character, and a part of one.
-/

namespace SglangInc.Utf8

open List ByteText

/-- The bytes of a character. -/
def encodeChar (c : Char) : List Nat :=
  let n := c.toNat
  if n ≤ 0x7F then [n]
  else if n ≤ 0x7FF then [0xC0 + n / 64, 0x80 + n % 64]
  else if n ≤ 0xFFFF then [0xE0 + n / 4096, 0x80 + n / 64 % 64, 0x80 + n % 64]
  else [0xF0 + n / 262144, 0x80 + n / 4096 % 64, 0x80 + n / 64 % 64, 0x80 + n % 64]

/-- The bytes of a text. -/
def encode (text : List Char) : List Nat := text.flatMap encodeChar

/-- The characters of a text that end within its first `n` bytes. -/
def completed : List Char → Nat → List Char
  | [], _ => []
  | c :: text, n => if c.utf8Size ≤ n then c :: completed text (n - c.utf8Size) else []

section Characters

theorem utf8Size_eq (c : Char) : c.utf8Size =
    if c.toNat ≤ 0x7F then 1 else if c.toNat ≤ 0x7FF then 2 else if c.toNat ≤ 0xFFFF then 3
    else 4 := by
  rfl

theorem length_encodeChar (c : Char) : (encodeChar c).length = c.utf8Size := by
  rw [utf8Size_eq]
  unfold encodeChar
  simp only
  split_ifs <;> rfl

/-- A byte that goes on with a character of which more is owed. -/
theorem step_more {owed low high bits b : Nat} (hlow : low ≤ b) (hhigh : b ≤ high)
    (howed : 1 < owed) : step (some ⟨owed, low, high, bits⟩) b =
      ([], some ⟨owed - 1, 0x80, 0xBF, bits * 64 + (b - 0x80)⟩) := by
  rw [step, if_pos ⟨hlow, hhigh⟩]
  exact if_neg howed.not_ge

/-- A byte that ends a character. -/
theorem step_last {owed low high bits b : Nat} (hlow : low ≤ b) (hhigh : b ≤ high)
    (howed : owed ≤ 1) : step (some ⟨owed, low, high, bits⟩) b =
      ([Char.ofNat (bits * 64 + (b - 0x80))], none) := by
  rw [step, if_pos ⟨hlow, hhigh⟩]
  exact if_pos howed

variable {n : Nat}

theorem first_two (hlow : 0x80 ≤ n) (hhigh : n ≤ 0x7FF) :
    first (0xC0 + n / 64) = ([], some ⟨1, 0x80, 0xBF, n / 64⟩) := by
  unfold first
  rw [if_neg (by omega), if_pos (by omega), Nat.add_sub_cancel_left]

/-- The first of three bytes, and that the second one is in its bounds. -/
theorem first_three (hlow : 0x800 ≤ n) (hhigh : n ≤ 0xFFFF) (hvalid : n < 0xD800 ∨ 0xDFFF < n) :
    ∃ low high, first (0xE0 + n / 4096) = ([], some ⟨2, low, high, n / 4096⟩) ∧
      low ≤ 0x80 + n / 64 % 64 ∧ 0x80 + n / 64 % 64 ≤ high := by
  unfold first
  rw [if_neg (by omega), if_neg (by omega)]
  split_ifs
  · exact ⟨0xA0, 0xBF, by rw [show n / 4096 = 0 by omega], by omega, by omega⟩
  · exact ⟨0x80, 0x9F, by rw [show n / 4096 = 0xD by omega], by omega, by omega⟩
  · exact ⟨0x80, 0xBF, by rw [Nat.add_sub_cancel_left], by omega, by omega⟩
  all_goals omega

/-- The first of four bytes. -/
theorem first_four (hlow : 0x10000 ≤ n) (hhigh : n < 0x110000) :
    ∃ low high, first (0xF0 + n / 262144) = ([], some ⟨3, low, high, n / 262144⟩) ∧
      low ≤ 0x80 + n / 4096 % 64 ∧ 0x80 + n / 4096 % 64 ≤ high := by
  unfold first
  iterate 5 rw [if_neg (by omega)]
  split_ifs
  · exact ⟨0x90, 0xBF, by rw [show n / 262144 = 0 by omega], by omega, by omega⟩
  · exact ⟨0x80, 0xBF, by rw [Nat.add_sub_cancel_left], by omega, by omega⟩
  · exact ⟨0x80, 0x8F, by rw [show n / 262144 = 4 by omega], by omega, by omega⟩
  · omega

/-- A list of bytes that puts nothing out before its last one. -/
inductive Spells : Option Open → List Nat → Char → Prop
  | last {s : Option Open} {b : Nat} {c : Char} : step s b = ([c], none) → Spells s [b] c
  | more {s : Option Open} {b : Nat} {o : Open} {bs : List Nat} {c : Char} :
      step s b = ([], some o) → Spells (some o) bs c → Spells s (b :: bs) c

theorem spells_encodeChar (c : Char) : Spells none (encodeChar c) c := by
  have hvalid : c.toNat < 0xD800 ∨ 0xDFFF < c.toNat ∧ c.toNat < 0x110000 := c.valid
  have hback : ∀ n, n = c.toNat → Char.ofNat n = c := fun n hn => by rw [hn, Char.ofNat_toNat]
  unfold encodeChar
  simp only
  split_ifs with h1 h2 h3
  · refine .last ?_
    rw [step, first, if_pos h1, Char.ofNat_toNat]
  · refine .more (first_two (by omega) h2) (.last ?_)
    rw [step_last (by omega) (by omega) (Nat.le_refl 1), hback _ (by omega)]
  · rcases first_three (by omega) h3 (by omega) with ⟨low, high, hfirst, hlow, hhigh⟩
    refine .more hfirst (.more (step_more hlow hhigh (by omega)) (.last ?_))
    rw [step_last (by omega) (by omega) (by omega), hback _ (by omega)]
  · rcases first_four (n := c.toNat) (by omega) (by omega) with ⟨low, high, hfirst, hlow, hhigh⟩
    refine .more hfirst (.more (step_more hlow hhigh (by omega))
      (.more (step_more (by omega) (by omega) (by omega)) (.last ?_)))
    rw [step_last (by omega) (by omega) (by omega), hback _ (by omega)]

variable {s : Option Open} {bs : List Nat} {c : Char}

theorem Spells.decode (h : Spells s bs c) : emitted s bs = [c] ∧ stateAfter s bs = none := by
  induction h with
  | last hstep => simp [emitted, stateAfter, hstep]
  | more hstep _ ih => simpa [emitted, stateAfter, hstep] using ih

theorem Spells.decode_take (h : Spells s bs c) (hn : n < bs.length) :
    emitted s (bs.take n) = [] ∧ (0 < n → (stateAfter s (bs.take n)).isSome) := by
  induction h generalizing n with
  | last =>
    rw [length_singleton, Nat.lt_one_iff] at hn
    rw [hn]
    exact ⟨rfl, fun h => absurd h (lt_irrefl 0)⟩
  | more hstep _ ih =>
    cases n with
    | zero => exact ⟨rfl, fun h => absurd h (lt_irrefl 0)⟩
    | succ n =>
      rcases ih (Nat.lt_of_succ_lt_succ hn) with ⟨hout, hopen⟩
      simp only [take_succ_cons, emitted, stateAfter, hstep, hout, List.append_nil, true_and]
      intro _
      cases n with
      | zero => rfl
      | succ n => exact hopen (Nat.succ_pos n)

end Characters

variable (text : List Char)

/-- The first bytes of a text: what is complete has been put out. -/
theorem decode_beginning {bs : List Nat} (h : bs <+: encode text) :
    emitted none bs = completed text bs.length ∧
    (stateAfter none bs = none ↔ isCharBoundary text bs.length = true) := by
  induction text generalizing bs with
  | nil =>
    rw [prefix_nil.mp h]
    exact ⟨rfl, fun _ => rfl, fun _ => rfl⟩
  | cons c text ih =>
    have hspells := spells_encodeChar c
    have hsize := length_encodeChar c
    have hencode : encode (c :: text) = encodeChar c ++ encode text := rfl
    rw [hencode] at h
    by_cases hlt : bs.length < c.utf8Size
    · -- The bytes are a part of the first character.
      have hpart : bs = (encodeChar c).take bs.length := by
        rw [prefix_iff_eq_take.mp h, length_take, length_append]
        rw [take_append_of_le_length (by omega)]
        congr 1
        omega
      rcases hspells.decode_take (n := bs.length) (by omega) with ⟨hout, hopen⟩
      rw [← hpart] at hout hopen
      rw [completed, if_neg (by omega)]
      refine ⟨hout, ?_⟩
      rcases Nat.eq_zero_or_pos bs.length with hzero | hpos
      · rw [eq_nil_of_length_eq_zero hzero]
        exact iff_of_true rfl rfl
      · rw [isCharBoundary, splitAt_cons hpos, if_neg (by omega)]
        refine iff_of_false (fun hidle => ?_) Bool.false_ne_true
        rw [hidle] at hopen
        cases hopen hpos
    -- The first character is complete.
    obtain ⟨rest, rfl, hrest⟩ : ∃ rest, bs = encodeChar c ++ rest ∧ rest <+: encode text := by
      have hle : (encodeChar c).length ≤ bs.length := by omega
      rcases prefix_of_prefix_length_le (prefix_append _ _) h hle with ⟨rest, rfl⟩
      exact ⟨rest, rfl, (prefix_append_right_inj _).mp h⟩
    rcases ih hrest with ⟨hout, hidle⟩
    rcases hspells.decode with ⟨hfirst, hstate⟩
    rw [emitted_append, stateAfter_append, hfirst, hstate, hout, hidle]
    have hpos : 0 < c.utf8Size + rest.length := Nat.add_pos_left c.utf8Size_pos _
    rw [length_append, hsize, completed, isCharBoundary, isCharBoundary, splitAt_cons hpos,
      if_pos (Nat.le_add_right _ _), if_pos (Nat.le_add_right _ _), Nat.add_sub_cancel_left,
      Option.isSome_map]
    exact ⟨rfl, Iff.rfl⟩

theorem length_encode : (encode text).length = byteLen text := by
  induction text with
  | nil => rfl
  | cons c text ih =>
    rw [byteLen_cons, ← ih, ← length_encodeChar, ← length_append]
    rfl

theorem completed_byteLen : completed text (byteLen text) = text := by
  induction text with
  | nil => rfl
  | cons c text ih =>
    rw [completed, byteLen_cons, if_pos (Nat.le_add_right _ _), Nat.add_sub_cancel_left, ih]

/-- An encoded text is decoded to itself. -/
theorem decodeLossy_encode : decodeLossy (encode text) = text := by
  rcases decode_beginning text (prefix_refl _) with ⟨hout, hidle⟩
  rw [length_encode] at hout hidle
  rw [decodeLossy, hout, completed_byteLen,
    hidle.mpr (isCharBoundary_iff.mpr ⟨text, [], (List.append_nil _).symm, rfl⟩), flush,
    List.append_nil]

end SglangInc.Utf8
