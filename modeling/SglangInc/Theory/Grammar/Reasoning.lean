import SglangInc.Core.Grammar
import SglangInc.Lib.Runs
import Mathlib.Data.List.Basic
import Mathlib.Tactic.SplitIfs

/-!
# Grammars Behind a Thinking Part

A `ReasonerGrammarObject` passes tokens on to its grammar from the end of thinking on.
It keeps only a number, -1 before that end and then how many tokens came after it, and
a rollback splits at this number between the grammar and the thinking part.

The number is right as long as the grammar holds every token it was given. A grammar
that has terminated does not: it ignores tokens, and a rollback then takes back tokens
that came before. And the wrapper does not pass `is_terminated` on, so it does not say
that its grammar has terminated. Both are seen in `terminated_not_forwarded`. In a run
in which the grammar does not terminate the wrapper is exact (`reasoner_exact`).
-/

namespace SglangInc.Grammar

open List ReasonerGrammarObject

variable {g : XGrammarGrammar} {thinkEndId : Nat}

/-- A wrapper, with the tokens that were accepted and not rolled back. -/
structure Session where
  object : ReasonerGrammarObject XGrammarGrammar
  history : List Nat

/-- The object of a grammar that has not been used. -/
def Session.init (ctx : CompiledGrammar) (keyString : Option String) (thinkEndId : Nat) : Session :=
  ⟨.new ⟨[], ctx, [], keyString⟩ thinkEndId, []⟩

/-- The calls of the object. -/
inductive Op where
  | acceptToken (token : Nat)
  | rollback (k : Nat)
  | isTerminated
  | fillVocabMask (vocabMask : Bitmask) (idx : Nat)
  | copy

/-- A call that raises leaves the object as it was. -/
def Step (s : Session) (op : Op) (s' : Session) : Prop :=
  match op with
  | .acceptToken token =>
    match s.object.acceptToken token with
    | .ok object => s' = ⟨object, s.history ++ [token]⟩
    | .error _ => s' = s
  | .rollback k => k ≤ s.history.length ∧ match s.object.rollback k with
      | .ok object => s' = ⟨object, s.history.take (s.history.length - k)⟩
      | .error _ => s' = s
  | .isTerminated => s' = s
  | .fillVocabMask _ _ => s' = s
  | .copy => s' = ⟨s.object.copy, []⟩

/-- The inner grammar after some tokens. -/
def feed (g : XGrammarGrammar) (tokens : List Nat) : Except Error XGrammarGrammar :=
  tokens.foldlM XGrammarGrammar.acceptToken g

/-- Before the end of thinking there is no constraint, and after it there are those of
    the grammar, which has read the tokens that follow the first end. What was accepted
    can be rolled back. -/
structure Exact (g : XGrammarGrammar) (thinkEndId : Nat) (s : Session) : Prop where
  thinking : thinkEndId ∉ s.history → s.object.grammar = g ∧
    BaseGrammarObject.isTerminated s.object = false ∧
    ∀ mask idx, BaseGrammarObject.fillVocabMask s.object mask idx = .ok mask
  after : ∀ before tokens, s.history = before ++ thinkEndId :: tokens → thinkEndId ∉ before →
    feed g tokens = .ok s.object.grammar ∧
    BaseGrammarObject.isTerminated s.object = s.object.grammar.isTerminated ∧
    ∀ mask idx, BaseGrammarObject.fillVocabMask s.object mask idx =
      s.object.grammar.fillVocabMask mask idx
  rollback : ∀ k ≤ s.history.length, ∃ object, s.object.rollback k = .ok object

/-- The tokens after the first end of thinking do not make the grammar terminate. -/
def GoesOn (ctx : CompiledGrammar) (thinkEndId : Nat) (s : Session) : Op → Prop
  | .acceptToken token => ∀ before tokens,
      s.history ++ [token] = before ++ thinkEndId :: tokens → thinkEndId ∉ before →
      ctx.terminated tokens = false
  | _ => True

section Rollback

variable {γ : Type}

/-- The number after a rollback. -/
theorem rollbackStates_eq (r : ReasonerGrammarObject γ) (h : -1 ≤ r.tokensAfterThinkEnd)
    (k : Nat) : r.rollbackStates k =
      { r with tokensAfterThinkEnd := max (-1) (r.tokensAfterThinkEnd - k) } := by
  induction k generalizing r with
  | zero =>
    obtain ⟨grammar, id, n⟩ := r
    simp only [rollbackStates] at h ⊢
    congr 1
    omega
  | succ k ih =>
    obtain ⟨grammar, id, n⟩ := r
    simp only at h
    have hstep : (ReasonerGrammarObject.mk grammar id n).rollbackState =
        ⟨grammar, id, max (-1) (n - 1)⟩ := by
      unfold rollbackState
      simp only
      split_ifs with hzero hpos
      · rw [hzero]
        rfl
      all_goals
        congr 1
        omega
    rw [rollbackStates, hstep, ih _ (by simp only; omega)]
    simp only
    congr 1
    omega

end Rollback

/-- The grammar that has read some tokens. -/
def reading (g : XGrammarGrammar) (tokens : List Nat) : XGrammarGrammar :=
  { g with matcher := tokens, acceptedTokens := tokens }

/-- All beginnings of some tokens are read, and the grammar goes on behind them. -/
def Reads (g : XGrammarGrammar) (tokens : List Nat) : Prop :=
  ∀ p, p <+: tokens → feed g p = .ok (reading g p) ∧ g.ctx.terminated p = false

/-- The number of a wrapper and the tokens of its grammar. -/
inductive Tracks (g : XGrammarGrammar) (thinkEndId : Nat) : Session → Prop
  | thinking {history : List Nat} : thinkEndId ∉ history →
      Tracks g thinkEndId ⟨⟨g, thinkEndId, -1⟩, history⟩
  | after {before tokens : List Nat} : thinkEndId ∉ before → Reads g tokens → Tracks g thinkEndId
        ⟨⟨reading g tokens, thinkEndId, tokens.length⟩, before ++ thinkEndId :: tokens⟩

variable {tokens : List Nat} {s s' : Session} {token k : Nat}

/-- The first end of thinking is one position. -/
theorem split_unique {before before' tokens' : List Nat} (h : thinkEndId ∉ before)
    (h' : thinkEndId ∉ before')
    (heq : before ++ thinkEndId :: tokens = before' ++ thinkEndId :: tokens') :
    before = before' ∧ tokens = tokens' := by
  have hlen : before.length = before'.length := by
    have hidx := congrArg (idxOf thinkEndId) heq
    rwa [idxOf_append_of_notMem h, idxOf_append_of_notMem h', idxOf_cons_self,
      idxOf_cons_self] at hidx
  have hsplit := append_inj heq hlen
  exact ⟨hsplit.1, (List.cons.inj hsplit.2).2⟩

theorem Reads.nil (hg : reading g [] = g) (hterm : g.ctx.terminated [] = false) : Reads g [] := by
  intro p hp
  rw [prefix_nil.mp hp, hg]
  exact ⟨rfl, hterm⟩

/-- One more token is accepted or rejected by the wrapper as by the grammar. -/
theorem Reads.accept (h : Reads g tokens) (token : Nat) :
    (∃ e, (reading g tokens).acceptToken token = .error e) ∨
    (reading g tokens).acceptToken token = .ok (reading g (tokens ++ [token])) := by
  have hterm : (reading g tokens).isTerminated = false := (h tokens prefix_rfl).2
  cases hallowed : g.ctx.allowed tokens token with
  | false =>
    refine .inl ⟨.valueError token tokens g.keyString, ?_⟩
    rw [XGrammarGrammar.acceptToken, hterm, Bool.not_false, if_pos rfl]
    simp [reading, hallowed]
  | true =>
    refine .inr ?_
    rw [XGrammarGrammar.acceptToken, hterm, Bool.not_false, if_pos rfl]
    simp [reading, hallowed]

theorem Reads.snoc (h : Reads g tokens)
    (haccept : (reading g tokens).acceptToken token = .ok (reading g (tokens ++ [token])))
    (hterm : g.ctx.terminated (tokens ++ [token]) = false) : Reads g (tokens ++ [token]) := by
  intro p hp
  rcases prefix_concat_iff.mp hp with rfl | hp
  · refine ⟨?_, hterm⟩
    rw [feed, foldlM_append, ← feed, (h tokens prefix_rfl).1]
    simp only [bind, Except.bind, foldlM_cons, foldlM_nil, haccept]
    rfl
  · exact h p hp

/-- A token is accepted, before or behind the end of the thinking. -/
theorem Tracks.accept (hg : reading g [] = g) (h : Tracks g thinkEndId s)
    (hgoes : GoesOn g.ctx thinkEndId s (.acceptToken token))
    (hstep : Step s (.acceptToken token) s') : Tracks g thinkEndId s' := by
  cases h with
  | @thinking history hnot =>
    subst hstep
    by_cases hend : token = thinkEndId
    · subst hend
      have hreads := Reads.nil hg (hgoes history [] rfl hnot)
      have := Tracks.after hnot hreads
      rw [hg] at this
      simpa [transferState] using this
    have hsame : transferState ⟨g, thinkEndId, -1⟩ token =
        ⟨g, thinkEndId, -1⟩ := by
      simp [transferState, hend]
    rw [hsame]
    refine .thinking fun hmem => ?_
    rcases mem_append.mp hmem with hmem | hmem
    · exact hnot hmem
    · exact hend (mem_singleton.mp hmem).symm
  | @after before tokens hbefore hreads =>
    have hafter : (0 : Int) ≤ tokens.length := Int.natCast_nonneg _
    -- A token that the grammar rejects leaves the state as it is.
    rcases hreads.accept token with ⟨e, herror⟩ | hok
    · have haccept : (ReasonerGrammarObject.mk (reading g tokens) thinkEndId
          tokens.length).acceptToken token = .error e := by
        rw [acceptToken, if_pos hafter]
        simp [show BaseGrammarObject.acceptToken (reading g tokens) token = .error e from herror]
      simp only [Step, haccept] at hstep
      subst hstep
      exact .after hbefore hreads
    have haccept : (ReasonerGrammarObject.mk (reading g tokens) thinkEndId
        tokens.length).acceptToken token =
        .ok ⟨reading g (tokens ++ [token]), thinkEndId, (tokens ++ [token]).length⟩ := by
      rw [acceptToken, if_pos hafter]
      simp only [show BaseGrammarObject.acceptToken (reading g tokens) token =
        .ok (reading g (tokens ++ [token])) from hok, transferState]
      rw [if_neg (by omega), if_pos (by omega), length_append, length_singleton]
      rfl
    simp only [Step, haccept] at hstep
    subst hstep
    rw [append_assoc, cons_append]
    refine .after hbefore (hreads.snoc hok ?_)
    exact hgoes before (tokens ++ [token]) (by simp) hbefore

theorem reading_rollback (hpos : 0 < k) (hk : k ≤ tokens.length) :
    (reading g tokens).rollback k = .ok (reading g (tokens.take (tokens.length - k))) := by
  have hdrop : XGrammarGrammar.dropEnd tokens k = tokens.take (tokens.length - k) :=
    if_neg (Nat.ne_of_gt hpos)
  rw [XGrammarGrammar.rollback, if_pos (show k ≤ (reading g tokens).matcher.length from hk)]
  show Except.ok (XGrammarGrammar.mk _ _ (XGrammarGrammar.dropEnd tokens k) _) = _
  rw [hdrop]
  rfl

theorem Reads.take (h : Reads g tokens) (n : Nat) : Reads g (tokens.take n) :=
  fun p hp => h p (hp.trans <| take_prefix _ _)

/-- A rollback that stays behind the end of thinking, or goes before it. -/
theorem Tracks.rollback (hg : reading g [] = g) (h : Tracks g thinkEndId s)
    (hk : k ≤ s.history.length) :
    ∃ object, s.object.rollback k = .ok object ∧
      Tracks g thinkEndId ⟨object, s.history.take (s.history.length - k)⟩ := by
  cases h with
  | @thinking history hnot =>
    refine ⟨⟨g, thinkEndId, -1⟩, ?_, .thinking fun hmem => hnot (mem_of_mem_take hmem)⟩
    rw [rollback]
    simp only
    rw [if_neg (by omega), rollbackStates_eq _ (by simp)]
    rw [show max (-1) ((-1 : Int) - k) = -1 by omega]
  | @after before tokens hbefore hreads =>
    -- The grammar keeps what is before the last `min k tokens.length` tokens.
    refine ⟨⟨reading g (tokens.take (tokens.length - k)), thinkEndId,
      max (-1) ((tokens.length : Int) - k)⟩, ?_, ?_⟩
    · rw [rollback]
      by_cases hpos : min (k : Int) tokens.length > 0
      · have hmin : (min (k : Int) tokens.length).toNat = min k tokens.length := by omega
        have hinner : (reading g tokens).rollback (min k tokens.length) = _ :=
          reading_rollback (by omega) (Nat.min_le_right _ _)
        rw [show tokens.length - min k tokens.length = tokens.length - k by omega] at hinner
        rw [if_pos hpos, hmin]
        simp only [show BaseGrammarObject.rollback (reading g tokens) (min k tokens.length) =
          .ok (reading g (tokens.take (tokens.length - k))) from hinner]
        rw [rollbackStates_eq _ (by simp only; omega)]
      · rw [if_neg hpos, rollbackStates_eq _ (by simp only; omega), take_of_length_le (by omega)]
    · simp only [length_append, length_cons] at hk ⊢
      by_cases hle : k ≤ tokens.length
      · have htake : (before ++ thinkEndId :: tokens).take
            (before.length + (tokens.length + 1) - k) =
            before ++ thinkEndId :: tokens.take (tokens.length - k) := by
          rw [take_append, take_of_length_le (by omega),
            show before.length + (tokens.length + 1) - k - before.length =
              tokens.length - k + 1 by omega, take_succ_cons]
        rw [htake, show max (-1) ((tokens.length : Int) - k) =
          ((tokens.take (tokens.length - k)).length : Int) by rw [length_take]; omega]
        exact .after hbefore (hreads.take _)
      · rw [take_append_of_le_length (by omega),
          show max (-1) ((tokens.length : Int) - k) = -1 by omega,
          show tokens.length - k = 0 by omega, take_zero, hg]
        exact .thinking fun hmem => hbefore (mem_of_mem_take hmem)

/-- What the object does follows from its history. -/
theorem Tracks.exact (hg : reading g [] = g) (h : Tracks g thinkEndId s) :
    Exact g thinkEndId s := by
  have hrollback : ∀ k ≤ s.history.length, ∃ object, s.object.rollback k = .ok object :=
    fun k hk => (h.rollback hg hk).imp fun _ hr => hr.1
  cases h with
  | thinking hnot =>
    refine ⟨fun _ => ⟨rfl, rfl, fun mask idx => rfl⟩, fun before tokens heq _ => ?_, hrollback⟩
    simp only at heq
    refine absurd ?_ hnot
    rw [heq]
    exact mem_append_right _ mem_cons_self
  | @after before tokens hbefore hreads =>
    refine ⟨fun hnot => ?_, fun before' tokens' heq hbefore' => ?_, hrollback⟩
    · exact absurd (mem_append_right _ mem_cons_self) hnot
    · rcases split_unique hbefore hbefore' heq with ⟨-, rfl⟩
      rcases hreads tokens prefix_rfl with ⟨hfeed, hterm⟩
      refine ⟨hfeed, hterm.symm, fun mask idx => ?_⟩
      rfl

/-- Every call keeps the object in step with its history. -/
theorem Tracks.step {op : Op} (hg : reading g [] = g) (h : Tracks g thinkEndId s)
    (hgoes : GoesOn g.ctx thinkEndId s op) (hstep : Step s op s') : Tracks g thinkEndId s' := by
  cases op with
  | acceptToken token => exact h.accept hg hgoes hstep
  | rollback k =>
    rcases h.rollback hg hstep.1 with ⟨object, hrollback, htracks⟩
    have hstep := hstep.2
    rw [hrollback] at hstep
    exact hstep ▸ htracks
  | isTerminated | fillVocabMask => exact hstep ▸ h
  | copy =>
    have hfresh : s.object.copy = ⟨g, thinkEndId, -1⟩ := by
      cases h with
      | thinking hnot =>
        show (⟨g.copy, thinkEndId, -1⟩ : ReasonerGrammarObject XGrammarGrammar) = _
        rw [show g.copy = reading g [] from rfl, hg]
      | after hbefore hreads =>
        show (⟨(reading g _).copy, thinkEndId, -1⟩ : ReasonerGrammarObject XGrammarGrammar) = _
        rw [show (reading g _).copy = reading g [] from rfl, hg]
    simp only [Step, hfresh] at hstep
    subst hstep
    exact .thinking not_mem_nil

/-- In a run in which the grammar does not terminate, the wrapper is exact in every
    state. -/
theorem reasoner_exact (ctx : CompiledGrammar) (keyString : Option String) (thinkEndId : Nat)
    {tr : List (Session × Op × Session)} {s : Session}
    (hr : Run Step (Session.init ctx keyString thinkEndId) tr s)
    (hgoes : ∀ e ∈ tr, GoesOn ctx thinkEndId e.1 e.2.1) :
    Exact ⟨[], ctx, [], keyString⟩ thinkEndId s ∧
    ∀ e ∈ tr, Exact ⟨[], ctx, [], keyString⟩ thinkEndId e.2.2 := by
  rcases hr.inv_of_guard (P := Tracks ⟨[], ctx, [], keyString⟩ thinkEndId) hgoes
    (.thinking not_mem_nil) (fun _ _ _ h hgoes hstep => h.step rfl hgoes hstep)
    with ⟨hlast, hall⟩
  exact ⟨hlast.exact rfl, fun e he => (hall e he).exact rfl⟩

/-- A grammar that ends after one token, whatever it is. -/
def oneToken : CompiledGrammar := ⟨fun _ _ => true, fun tokens => decide (tokens.length = 1)⟩

/-- The wrapper of that grammar, with the tokens it holds and the number of the wrapper. -/
def oneTokenSession (tokens : List Nat) (number : Int) (history : List Nat) : Session :=
  ⟨⟨⟨tokens, oneToken, tokens, none⟩, 0, number⟩, history⟩

/-- Thinking ends with token 0 and token 5 ends the grammar. The wrapper does not say so.
    Token 6 is ignored by the grammar, and when it is rolled back the grammar loses
    token 5. -/
theorem terminated_not_forwarded :
    (∃ tr s, Run Step (Session.init oneToken none 0) tr s ∧ s.history = [0, 5] ∧
      s.object.grammar.acceptedTokens = [5] ∧ s.object.grammar.isTerminated = true ∧
      BaseGrammarObject.isTerminated s.object = false ∧ ¬ Exact ⟨[], oneToken, [], none⟩ 0 s) ∧
    ∃ tr s, Run Step (Session.init oneToken none 0) tr s ∧ s.history = [0, 5] ∧
      s.object.grammar.acceptedTokens = [] := by
  have hfirst : Run Step (Session.init oneToken none 0) _ (oneTokenSession [] 0 [0]) :=
    .snoc (Op.acceptToken 0) .nil (by exact rfl)
  have hsecond : Run Step _ _ (oneTokenSession [5] 1 [0, 5]) :=
    .snoc (Op.acceptToken 5) hfirst (by exact rfl)
  have hthird : Run Step _ _ (oneTokenSession [5] 2 [0, 5, 6]) :=
    .snoc (Op.acceptToken 6) hsecond (by exact rfl)
  have hlast : Run Step _ _ (oneTokenSession [] 1 [0, 5]) :=
    .snoc (Op.rollback 1) hthird (by exact ⟨by decide, rfl⟩)
  refine ⟨⟨_, _, hsecond, rfl, rfl, rfl, rfl, fun hexact => ?_⟩, _, _, hlast, rfl, rfl⟩
  have hstatus := (hexact.after [] [5] rfl not_mem_nil).2.1
  exact absurd hstatus (by decide)

/-- A grammar of any tokens that does not end. -/
def anyTokens : CompiledGrammar := ⟨fun _ _ => true, fun _ => false⟩

theorem reasoner_exact_anyTokens :
    Exact ⟨[], anyTokens, [], none⟩ 0 ⟨⟨⟨[5], anyTokens, [5], none⟩, 0, 1⟩, [7, 0, 5]⟩ :=
  (reasoner_exact anyTokens none 0
    (.snoc (Op.acceptToken 5) (.snoc (Op.acceptToken 0) (.snoc (Op.acceptToken 7) .nil
      (by exact rfl)) (by exact rfl)) (by exact rfl))
    (forall_mem_append.mpr ⟨forall_mem_append.mpr ⟨forall_mem_singleton.mpr fun _ _ _ _ => rfl,
      forall_mem_singleton.mpr fun _ _ _ _ => rfl⟩,
      forall_mem_singleton.mpr fun _ _ _ _ => rfl⟩)).1

end SglangInc.Grammar
