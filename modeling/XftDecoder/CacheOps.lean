/-
# What the layer loops ask of the KV cache manager

The KV cache manager is not under src/; its contract is in the spec (§4.2).
What is in src/ is the order in which the layer loops call it. Iteration `i`
of `forward`'s loop (lines 438-460):
1. at step 0 under prefix sharing, replicates layer `i`'s prefix cache
   across the batch (`expandPrefixCache`);
2. lets the attention append the call's `inputSeqLen` positions at
   `pastSeqLen` to the cache of layer `i` (`getKey`, `getValue`);
3. at step 0 with more than one beam, replicates the cache across the beams
   (`expandCache`).
`prefixForward` appends the prefix to each layer's prefix cache
(lines 730-741). `CacheOp` records these requests, `runCacheOps` those of a
run of calls.

Over a generation (a prompt at step 0, then one token per beam at each later
step), the requests for every layer are exactly the protocol of §4.2
(`generation_cache_ops`):
* the prefix is replicated before the first append that is not the prefix;
* the prompt is appended right after the prefix;
* `expandCache` comes once, at step 0 and before any later append, exactly
  when there is more than one beam;
* each later step appends one token per beam right after the positions
  before it.

Key definitions: `CacheOp`, `layerCacheOps`, `runCacheOps`, `opsOfLayer`,
`layerProtocol`.
Key theorems: `opsOfLayer_flatMap_range`, `opsOfLayer_decode`,
`generation_cache_ops`.
-/
import XftDecoder.Buffers

namespace XftDecoder

/-- A request to the KV cache manager, with the layer it is for. -/
inductive CacheOp
  /-- `expandPrefixCache(layer, userSideBS, prefixSeqLen)`. -/
  | expandPrefixCache (layer userSideBS prefixSeqLen : ℕ)
  /-- The attention appends `inputSeqLen` positions at `pastSeqLen` to the
  `slots` sequences of `getKey(layer)` and `getValue(layer)`. -/
  | append (layer slots pastSeqLen inputSeqLen : ℕ)
  /-- `prefixForward`'s attention writes `seqLen` positions to
  `getPrefixKey(layer)` and `getPrefixValue(layer)`. -/
  | prefixAppend (layer seqLen : ℕ)
  /-- `expandCache(layer, userSideBS, beamSize, seqLen)`. -/
  | expandCache (layer userSideBS beamSize seqLen : ℕ)
  deriving DecidableEq, Repr

/-- The layer a request is for. -/
def CacheOp.layer : CacheOp → ℕ
  | .expandPrefixCache i _ _ | .append i _ _ _ | .prefixAppend i _ | .expandCache i _ _ _ => i

/-- Lines 440-460: what iteration `i` of `forward`'s layer loop asks, for a
call on `d` with the shapes `sh`. -/
def layerCacheOps (d : CommonDecoder) (dims : Dims) (step : ℕ) (sh : Shape) (i : ℕ) : List CacheOp :=
  (if step = 0 ∧ d.prefixSharing then [.expandPrefixCache i dims.userSideBS d.prefixSeqLen] else []) ++
    .append i sh.batchSize sh.pastSeqLen sh.inputSeqLen ::
    (if step = 0 ∧ 1 < dims.beamSize then [.expandCache i dims.userSideBS dims.beamSize dims.seqLen] else [])

/-- The requests of a call of the model's `layers` layers, each under its
own name; `forward` and `prefixForward` ask, the other calls do not. -/
def Call.cacheOps (layers : ℕ) (d : CommonDecoder) : Call → List CacheOp
  | .forward dims step la =>
    (List.range layers).flatMap (layerCacheOps d dims step (forwardBegin d dims step la).1)
  | .setPrefix seqLen => (List.range layers).map fun i => .prefixAppend i seqLen
  | .unsetPrefix | .skipFirstStep _ => []

/-- The requests of a run of calls, in order. -/
def runCacheOps (p : CommonDecoder → ℕ → ℕ) (layers : ℕ) : CommonDecoder → List Call → List CacheOp
  | _, [] => []
  | d, c :: cs => c.cacheOps layers d ++ runCacheOps p layers (c.apply p d) cs

/-- The requests for layer `i`. -/
def opsOfLayer (i : ℕ) (ops : List CacheOp) : List CacheOp := ops.filter fun op => op.layer = i

/-- The KV cache protocol of §4.2 for layer `i` over a generation of `n`
steps after the prompt, on `U` prompts of `s` tokens with `K` beams: the
shared prefix, if any, replicated across the batch; the prompt appended
after it; the cache replicated across the beams, if more than one; then one
token per beam at each later step, each right after the last. -/
def layerProtocol (i U K s : ℕ) (pre : Option ℕ) (n : ℕ) : List CacheOp :=
  (match pre with
    | some P => [.expandPrefixCache i U P]
    | none => []) ++
    .append i U (pre.getD 0) (s - pre.getD 0) ::
    (if 1 < K then [.expandCache i U K s] else []) ++
    (List.range n).map fun j => .append i (U * K) (s + j) 1

theorem layer_of_mem_layerCacheOps {d : CommonDecoder} {dims : Dims} {step : ℕ} {sh : Shape} {i : ℕ} :
    ∀ op ∈ layerCacheOps d dims step sh i, op.layer = i := by
  unfold layerCacheOps
  split_ifs <;> simp [CacheOp.layer]

@[simp] theorem opsOfLayer_append (i : ℕ) (ops ops' : List CacheOp) :
    opsOfLayer i (ops ++ ops') = opsOfLayer i ops ++ opsOfLayer i ops' := List.filter_append _ _

/-- In a loop over the layers, layer `i` sees its own iteration, if the loop
reaches it, and nothing else. -/
theorem opsOfLayer_flatMap_range (i : ℕ) (f : ℕ → List CacheOp) (hf : ∀ j, ∀ op ∈ f j, op.layer = j) :
    ∀ n, opsOfLayer i ((List.range n).flatMap f) = if i < n then f i else []
  | 0 => rfl
  | n + 1 => by
    rw [List.range_succ, List.flatMap_append, opsOfLayer_append, opsOfLayer_flatMap_range i f hf n,
      List.flatMap_singleton]
    have hn : opsOfLayer i (f n) = if i = n then f n else [] := by
      split_ifs with h
      · subst h; exact List.filter_eq_self.2 fun op hop => by simp [hf i op hop]
      · exact List.filter_eq_nil_iff.2 fun op hop => by simp [hf n op hop, Ne.symm h]
    rw [hn]
    split_ifs <;> first | omega | simp_all

section Generation

variable (p : CommonDecoder → ℕ → ℕ) (layers U K : ℕ) {i : ℕ}

/-- The decode steps of a generation ask, for each layer, one token per beam
at each step, right after the positions before it. -/
theorem opsOfLayer_decode (hi : i < layers) :
    ∀ (d : CommonDecoder) (later : List (ℕ × Bool)), (∀ x ∈ later, x.1 ≠ 0) →
      opsOfLayer i (runCacheOps p layers d (later.map fun x => .forward ⟨U, K, 1⟩ x.1 x.2)) =
        (List.range later.length).map fun j => .append i (U * K) (d.accSeqLen + j) 1
  | _, [], _ => rfl
  | d, x :: later, hl => by
    have hx : x.1 ≠ 0 := hl x (List.mem_cons_self _ _)
    have hacc := forward_accSeqLen p d ⟨U, K, 1⟩ x.1 x.2 (fun h => absurd h hx)
    rw [forwardBegin_pastSeqLen, forwardBegin_inputSeqLen, if_neg hx, if_neg (by simp [hx])] at hacc
    rw [List.map_cons, runCacheOps, opsOfLayer_append, Call.cacheOps,
      opsOfLayer_flatMap_range i _ (fun _ => layer_of_mem_layerCacheOps) _, if_pos hi,
      opsOfLayer_decode hi _ later fun y hy => hl y (List.mem_cons_of_mem _ hy), Call.apply, hacc,
      List.length_cons, List.range_succ_eq_map, List.map_cons, List.map_map]
    simp [layerCacheOps, hx, forwardBegin_batchSize, forwardBegin_pastSeqLen, forwardBegin_inputSeqLen,
      Function.comp_def, Nat.add_assoc, Nat.add_comm 1]

/-- **Every layer's cache follows the protocol of §4.2 over a generation.**
For every decoder and every layer of the loop, in a generation of `U` prompts
of `s` tokens, at least as long as the shared prefix if there is one, with
`K` beams, the requests for the layer's KV cache are, in order: the
replication of the prefix, if any; the prompt appended right after it; the
replication across the beams, once and only if `K > 1`; then, at each later
step, one token per beam right after the positions before it. -/
theorem generation_cache_ops (d : CommonDecoder) (s : ℕ) (la : Bool) (later : List (ℕ × Bool))
    (hi : i < layers) (hpre : d.prefixSharing → d.prefixSeqLen ≤ s) (hlater : ∀ x ∈ later, x.1 ≠ 0) :
    opsOfLayer i (runCacheOps p layers d (generation U K s la later)) =
      layerProtocol i U K s (if d.prefixSharing then some d.prefixSeqLen else none) later.length := by
  have hacc := forward_accSeqLen p d ⟨U, K, s⟩ 0 la fun _ => hpre
  rw [forwardBegin_pastSeqLen, forwardBegin_inputSeqLen] at hacc
  rw [generation, runCacheOps, opsOfLayer_append, Call.cacheOps,
    opsOfLayer_flatMap_range i _ (fun _ => layer_of_mem_layerCacheOps) _, if_pos hi,
    opsOfLayer_decode p layers U K hi _ later hlater, Call.apply, hacc]
  cases hps : d.prefixSharing
  · simp [layerCacheOps, layerProtocol, hps, forwardBegin_batchSize, forwardBegin_pastSeqLen,
      forwardBegin_inputSeqLen]
  · have hP := hpre hps
    simp [layerCacheOps, layerProtocol, hps, forwardBegin_batchSize, forwardBegin_pastSeqLen,
      forwardBegin_inputSeqLen, Nat.add_sub_cancel' hP]

end Generation

/-- A decoder after `setPrefix` with a prefix of 2 tokens. -/
def cachePrefixed : CommonDecoder :=
  setPrefix (fun d _ => d.maskSize) (CommonDecoder.init ⟨0, 0, 0, 8, 8, 16⟩) 2

/-- Layer 1 of 2, under a prefix of 2 tokens, for a prompt of 5 tokens with
2 beams and two decode steps. -/
theorem generation_cache_ops_prefix :
    opsOfLayer 1 (runCacheOps (fun d _ => d.maskSize) 2 cachePrefixed
        (generation 1 2 5 false [(1, false), (2, false)])) =
      layerProtocol 1 1 2 5
        (if cachePrefixed.prefixSharing then some cachePrefixed.prefixSeqLen else none) 2 :=
  generation_cache_ops _ 2 1 2 _ 5 false _ (by decide) (fun _ => by decide) (by decide)

end XftDecoder
