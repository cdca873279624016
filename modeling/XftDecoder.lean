import XftDecoder.Memory
import XftDecoder.Decoder
import XftDecoder.Buffers
import XftDecoder.Logits
import XftDecoder.Batch
import XftDecoder.BatchBuffer
import XftDecoder.Opt
import XftDecoder.Scheduler
import XftDecoder.Pipeline
import XftDecoder.Int32
import XftDecoder.AddTo
import XftDecoder.TensorParallel
import XftDecoder.Progress
import XftDecoder.Serving
import XftDecoder.Tokens
import XftDecoder.Sharing
import XftDecoder.CacheOps
