/-!
# The Token Bucket

`core/token_bucket.rs` with a `refill_rate` of 0: tokens come back by `return_tokens` only.

Under the mutex each `try_acquire` and each `return_tokens` is one step. Between a
`try_acquire` that fails and the call of `notified` the mutex is free, so this is a step of
its own, and `notify_waiters` wakes those that have taken it.
-/

namespace SglangInc.RateLimit

/-- Where a call of `acquire` is. -/
inductive Phase where
  | first | loop
  /-- Behind a `try_acquire` that failed, and then suspended in `notified`. -/
  | failed | suspended
deriving DecidableEq, Repr

/-- A call of `acquire` under way. -/
structure Acquire where
  tokens : Nat
  phase : Phase

/-- The calls of `acquire` under way, and what the others have been given. -/
structure TokenBucket where
  capacity : Nat
  tokens : Nat
  acquires : List Acquire
  held : List Nat

/-- What happens to the bucket. -/
inductive Event where
  | acquire (tokens : Nat)
  /-- The next step of a call. -/
  | poll (i : Nat)
  | returnTokens (tokens : Nat)

/-- `notify_waiters`, for one call. -/
def Acquire.notify (a : Acquire) : Acquire :=
  if a.phase = .suspended then { a with phase := .loop } else a

namespace TokenBucket

/-- A full bucket. -/
def new (capacity : Nat) : TokenBucket := ⟨capacity, capacity, [], []⟩

/-- `try_acquire`, for a call that is done or goes on to `next`. -/
def tryAcquire (b : TokenBucket) (i n : Nat) (next : Phase) : TokenBucket :=
  if b.tokens ≥ n then
    { b with
      tokens := b.tokens - n
      acquires := b.acquires.eraseIdx i
      held := n :: b.held }
  else { b with acquires := b.acquires.set i ⟨n, next⟩ }

/-- A step of one of the calls. -/
def step (b : TokenBucket) : Event → TokenBucket
  | .acquire n => { b with acquires := b.acquires ++ [⟨n, .first⟩] }
  | .poll i =>
    match b.acquires[i]? with
    | some ⟨n, .first⟩ => b.tryAcquire i n .loop
    | some ⟨n, .loop⟩ => b.tryAcquire i n .failed
    | some ⟨n, .failed⟩ => { b with acquires := b.acquires.set i ⟨n, .suspended⟩ }
    | some ⟨_, .suspended⟩ | none => b
  | .returnTokens n =>
    { b with
      tokens := min (b.tokens + n) b.capacity
      acquires := b.acquires.map Acquire.notify
      held := b.held.erase n }

end TokenBucket

end SglangInc.RateLimit
