import SglangInc.Core.TokenBucket
import SglangInc.Lib.Runs
import Mathlib.Algebra.Order.Ring.Nat

/-!
# Waiters of the Token Bucket

Who is woken by `return_tokens`.

The check and the registration have no lock in common. Tokens that come back in between wake
nobody, and the call is suspended although they are there (`suspended_stranded`). Without
such a return every suspended call asks for more than there is, and in any case no token is
made (`suspended_short`).
-/

namespace SglangInc.RateLimit

open List TokenBucket

/-- Tokens come back while no call is between the check and the registration. -/
def Heard (b : TokenBucket) : Event → Prop
  | .returnTokens _ => ∀ a ∈ b.acquires, a.phase ≠ .failed
  | _ => True

/-- Tokens come back that were acquired. -/
def Matched (b : TokenBucket) : Event → Prop
  | .returnTokens n => n ∈ b.held
  | _ => True

/-- One event. -/
def Step (b : TokenBucket) (e : Event) (b' : TokenBucket) : Prop :=
  b' = b.step e

/-- Who has failed asks for more than there is. -/
def Short (b : TokenBucket) : Prop :=
  ∀ a ∈ b.acquires, a.phase = .failed ∨ a.phase = .suspended → b.tokens < a.tokens

variable {b : TokenBucket} {e : Event}

/-- What a step of a call does: it gets its tokens, or goes on. -/
theorem poll_cases (b : TokenBucket) (i : Nat) : b.step (.poll i) = b ∨
    ∃ n phase, ⟨n, phase⟩ ∈ b.acquires ∧ (n ≤ b.tokens ∧
      b.step (.poll i) = ⟨b.capacity, b.tokens - n, b.acquires.eraseIdx i, n :: b.held⟩ ∨
      (phase = .failed ∨ b.tokens < n) ∧
        ∃ phase', b.step (.poll i) = { b with acquires := b.acquires.set i ⟨n, phase'⟩ }) := by
  rw [step]
  split
  case h_3 n hi => exact .inr ⟨n, _, mem_of_getElem? hi, .inr ⟨.inl rfl, _, rfl⟩⟩
  case h_4 | h_5 => exact .inl rfl
  all_goals
    rename_i n hi
    refine .inr ⟨n, _, mem_of_getElem? hi, ?_⟩
    rw [tryAcquire]
    split_ifs with hle
    · exact .inl ⟨hle, rfl⟩
    · exact .inr ⟨.inr (not_le.mp hle), _, rfl⟩

/-- Who has failed stays short, if tokens come back only when all of them wait. -/
theorem short_step (hs : Short b) (hheard : Heard b e) : Short (b.step e) := by
  cases e with
  | acquire n => exact forall_mem_append.mpr ⟨hs, forall_mem_singleton.mpr (by simp)⟩
  | poll i =>
    rcases poll_cases b i with hb | ⟨n, phase, hmem, ⟨hle, hb⟩ | ⟨hfails, phase', hb⟩⟩
      <;> rw [hb]
    · exact hs
    · exact fun a ha hp => (Nat.sub_le ..).trans_lt (hs a ((eraseIdx_sublist ..).subset ha) hp)
    · intro a ha hp
      rcases mem_or_eq_of_mem_set ha with ha | rfl
      · exact hs a ha hp
      · exact hfails.elim (fun hfailed => hs ⟨n, phase⟩ hmem (.inl hfailed)) id
  | returnTokens n =>
    -- Those that are suspended are woken, and nobody else has failed.
    refine forall_mem_map.mpr fun a ha hp => ?_
    unfold Acquire.notify at hp
    split_ifs at hp with hsuspended
    · simp at hp
    · exact (hp.elim (hheard a ha) hsuspended).elim

/-- The tokens and what is held stay within the capacity. -/
theorem balanced_step (hb : b.tokens + b.held.sum ≤ b.capacity) (hmatched : Matched b e) :
    (b.step e).tokens + (b.step e).held.sum ≤ (b.step e).capacity := by
  cases e with
  | acquire n => exact hb
  | poll i =>
    rcases poll_cases b i with hb' | ⟨n, phase, _, ⟨hle, hb'⟩ | ⟨_, phase', hb'⟩⟩ <;> rw [hb']
    · exact hb
    · simp only [sum_cons]
      omega
    · exact hb
  | returnTokens n =>
    have herase := (perm_cons_erase hmatched).sum_nat
    rw [sum_cons] at herase
    simp only [step]
    omega

/-- Nobody is suspended for tokens that are there, if none come back unheard. The tokens in the
    bucket and those held are no more than its capacity, if only tokens that are held come back. -/
theorem suspended_short {capacity : Nat} {tr : List (TokenBucket × Event × TokenBucket)}
    (hr : Run Step (new capacity) tr b) :
    ((∀ x ∈ tr, Heard x.1 x.2.1) →
      ∀ a ∈ b.acquires, a.phase = .suspended → b.tokens < a.tokens) ∧
    ((∀ x ∈ tr, Matched x.1 x.2.1) → b.tokens + b.held.sum ≤ b.capacity) := by
  constructor
  · intro hheard a ha hp
    have hshort := hr.inv_of_guard (P := Short) hheard (forall_mem_nil _)
      fun _ _ _ hs hg he => he ▸ short_step hs hg
    exact hshort.1 a ha (.inr hp)
  · intro hmatched
    exact (hr.inv_of_guard (P := fun b => b.tokens + b.held.sum ≤ b.capacity) hmatched le_rfl
      fun _ _ _ hb hg he => he ▸ balanced_step hb hg).1

/-- Two calls wait for the only token. Its return wakes both of them, one takes it, and the other
    one is suspended again. -/
theorem suspended_short_one : ∃ tr b, Run Step (new 1) tr b ∧ .returnTokens 1 ∈ tr.map (·.2.1) ∧
    b.acquires = [⟨1, .suspended⟩] ∧ b.tokens < 1 ∧ b.tokens + b.held.sum ≤ 1 := by
  have hwait : Run Step (new 1) _ _ := .snoc (.poll 1) (.snoc (.poll 1) (.snoc (.poll 1)
    (.snoc (.poll 0) (.snoc (.poll 0) (.snoc (.poll 0) (.snoc (.acquire 1) (.snoc (.acquire 1)
      (.snoc (.poll 0) (.snoc (.acquire 1) .nil rfl) rfl) rfl) rfl) rfl) rfl) rfl) rfl) rfl) rfl
  have hr : Run Step (new 1) _ _ := .snoc (.poll 0) (.snoc (.poll 0) (.snoc (.poll 0)
    (.snoc (.returnTokens 1) hwait rfl) rfl) rfl) rfl
  refine ⟨_, _, hr, by simp, rfl, (suspended_short hr).1 ?_ ⟨1, .suspended⟩ (.head _) rfl,
    (suspended_short hr).2 ?_⟩
  · simp [Heard, step, tryAcquire, new]
  · simp [Matched, step, tryAcquire, new]

/-- The token comes back between the check and the registration, and the call that waits for it
    is suspended with nobody left to wake it. -/
theorem suspended_stranded : ∃ tr b, Run Step (new 1) tr b ∧ b.acquires = [⟨1, .suspended⟩] ∧
    b.tokens = 1 :=
  ⟨_, _, .snoc (.poll 0) (.snoc (.returnTokens 1) (.snoc (.poll 0) (.snoc (.poll 0)
    (.snoc (.acquire 1) (.snoc (.poll 0) (.snoc (.acquire 1) .nil
      rfl) rfl) rfl) rfl) rfl) rfl) rfl, rfl, rfl⟩

end SglangInc.RateLimit
