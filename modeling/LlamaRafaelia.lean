import LlamaRafaelia.Kv.CellsShift
import LlamaRafaelia.Recurrent.Runs
import LlamaRafaelia.Kv.Rollback
import LlamaRafaelia.Kv.IswaRuns
import LlamaRafaelia.Kv.StateFailed
import LlamaRafaelia.Grammar.Mask
import LlamaRafaelia.Tokenizer.Lossless
import LlamaRafaelia.Rafstore.EngineRuns
import LlamaRafaelia.Rafstore.LruCache
import LlamaRafaelia.Zipraf.Extract
import LlamaRafaelia.Gguf.Alignment
import LlamaRafaelia.Rpc.Client
import LlamaRafaelia.Schema.Literal
import LlamaRafaelia.Alloc.Reuse
import LlamaRafaelia.Batch.Bounds
import LlamaRafaelia.Kv.SearchComplete
import LlamaRafaelia.Server.TokenRuns
import LlamaRafaelia.Server.Cancel
import LlamaRafaelia.Server.Deferred
import LlamaRafaelia.Server.PromptCache
import LlamaRafaelia.Speculative.Draft
import LlamaRafaelia.Batch.Unchecked
import LlamaRafaelia.Recurrent.Remove
import LlamaRafaelia.Recurrent.StateRead
import LlamaRafaelia.Context.Outputs
import LlamaRafaelia.Grammar.PartialChar
import LlamaRafaelia.Tokenizer.Greedy
import LlamaRafaelia.Grammar.Repetitions
import LlamaRafaelia.Server.ProcessToken
import LlamaRafaelia.Tokenizer.Fragments
import LlamaRafaelia.Rafstore.Fairness
import LlamaRafaelia.Rafstore.TierLinks
import LlamaRafaelia.Tokenizer.Rwkv
import LlamaRafaelia.Tokenizer.Charsmap
import LlamaRafaelia.Tokenizer.Ugm
import LlamaRafaelia.Tokenizer.PlamoEncode
import LlamaRafaelia.Rafstore.StaleFree
import LlamaRafaelia.Bitraf.Runs
import LlamaRafaelia.Integrity.WitnessModel
import LlamaRafaelia.Guard.PolicyTerms
import LlamaRafaelia.Integrity.BitstackLog
import LlamaRafaelia.Baremetal.Cascade
import LlamaRafaelia.Baremetal.Solve
import LlamaRafaelia.Baremetal.Toroid
import LlamaRafaelia.Baremetal.Utils
import LlamaRafaelia.Alloc.Session
import LlamaRafaelia.Server.CommonPrefix
import LlamaRafaelia.Server.Alora
import LlamaRafaelia.Ngram.Draft
import LlamaRafaelia.Sampling.Dry
import LlamaRafaelia.Sampling.PartialSort
