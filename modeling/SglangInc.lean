import SglangInc.Theory.Controller.Coalesce
import SglangInc.Theory.Host.FlowControl
import SglangInc.Theory.Broadcast.Ack
import SglangInc.Theory.AllReduce.Invariant
import SglangInc.Theory.Serving.Reuse
import SglangInc.Theory.Allocator.Swa
import SglangInc.Theory.RadixCpp.Isolation
import SglangInc.Theory.Events.Mirror
import SglangInc.Theory.Batching.Alignment
import SglangInc.Theory.Batching.BalancedSplit
import SglangInc.Theory.Prefill.Admission
import SglangInc.Theory.Finish.StopTail
import SglangInc.Theory.Sessions.Trees
import SglangInc.Theory.Overlap.Futures
import SglangInc.Theory.Abort.Exact
import SglangInc.Theory.Ngram.Integrity
import SglangInc.Theory.Ngram.Matching
import SglangInc.Theory.Eagle.Lossless
import SglangInc.Theory.Eagle.KvBookkeeping
import SglangInc.Theory.Grammar.DraftMasks
import SglangInc.Theory.Grammar.Reasoning
import SglangInc.Theory.Detok.Sequence
import SglangInc.Theory.Stop.Cuts
import SglangInc.Theory.TokenCache.Transparent
import SglangInc.Theory.Registry.Exact
import SglangInc.Theory.Detok.Increments
import SglangInc.Theory.Workflow.Retries
import SglangInc.Theory.ToolParser.JsonExtract
import SglangInc.Theory.DataParallel.Budget
import SglangInc.Theory.TokenBucket.Waiters
