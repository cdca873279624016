/-
# The tensor-parallel layer loop

The `W` ranks of a tensor-parallel group run every layer on shards of its
weights (lines 436-487 of `forward`, 730-768 of `prefixForward`). Per layer,
rank `r` computes its attention shard from `embBuf` into `attnOut`. Unless
attention and MLP run in parallel, a group of more than one rank all-reduces
`attnOut` in place. Rank `r` then computes its FFN shard, from `attnOut`, or
from `embBuf` when attention and MLP run in parallel: into `outBuf`,
all-reduced into `embBuf`, when the group has more than one rank, and
straight into `embBuf` when it has one.

The numerics of the layers are outside this core: a shard is a function of
the buffers it reads (the FFN also sees `attnOut`, as `ctx->tmpBuf`).
`reduceAdd` is an all-reduce: every participant receives the same value,
`allReduce` of the contributions, which for a single participant is its own.
The group moves in lock step, one collective at a time, since every rank
makes the same collective calls with the same element count.

A group whose ranks start from the same embedding hold the same activations
after every layer, and these are what the layers compute on the whole model,
`groupLayer`, whatever the size of the group (`layerLoop_embBuf`).

Key definitions: `LayerBufs`, `LayerShards`, `layerForward`, `layerLoop`, `groupLayer`.
Key theorems: `layerForward_embBuf`, `layerLoop_embBuf`.
-/
import Mathlib.Data.Fin.Basic
import Mathlib.Data.List.Basic

namespace XftDecoder

/-- The buffers of one rank that the layer loop reads and writes. -/
structure LayerBufs (V : Type) where
  embBuf : V
  outBuf : V
  attnOut : V

/-- One layer on a group of `W` ranks: `forwardAttention` of rank `r`, from
`embBuf` to `attnOut`, and its `forwardFFN`, from its input and `attnOut` to
its output. -/
structure LayerShards (W : ℕ) (V : Type) where
  attn : Fin W → V → V
  ffn : Fin W → V → V → V

variable {W : ℕ} {V : Type}

section Layer

variable (attnMlpParallel : Bool) (allReduce : (Fin W → V) → V)

/-- One iteration of the layer loop on every rank of the group. -/
def layerForward (L : LayerShards W V) (s : Fin W → LayerBufs V) : Fin W → LayerBufs V :=
  let s := fun r => { s r with attnOut := L.attn r (s r).embBuf }
  let s := if !attnMlpParallel ∧ 1 < W then
      let a := allReduce fun r => (s r).attnOut
      fun r => { s r with attnOut := a }
    else s
  let input := fun r => if attnMlpParallel then (s r).embBuf else (s r).attnOut
  if 1 < W then
    let s := fun r => { s r with outBuf := L.ffn r (input r) (s r).attnOut }
    let e := allReduce fun r => (s r).outBuf
    fun r => { s r with embBuf := e }
  else fun r => { s r with embBuf := L.ffn r (input r) (s r).attnOut }

/-- The layer loop over the layers of the stage, in order. -/
def layerLoop (layers : List (LayerShards W V)) (s : Fin W → LayerBufs V) : Fin W → LayerBufs V :=
  layers.foldl (fun s L => layerForward attnMlpParallel allReduce L s) s

/-- What one layer computes on the whole model: attention over all shards,
reduced unless it runs in parallel with the MLP, then the FFN over all
shards, reduced. -/
def groupLayer (L : LayerShards W V) (x : V) : V :=
  let a := fun r => L.attn r x
  let a := if attnMlpParallel then a else fun _ => allReduce a
  allReduce fun r => L.ffn r (if attnMlpParallel then x else a r) (a r)

variable (hone : W = 1 → ∀ (v : Fin W → V) (r : Fin W), allReduce v = v r)
include hone

/-- **One layer keeps the group consistent.** If every rank holds `x` in
`embBuf`, after the layer every rank holds `groupLayer x`: with more than one
rank through the two all-reduces, with one rank through none. -/
theorem layerForward_embBuf (L : LayerShards W V) {s : Fin W → LayerBufs V} {x : V}
    (hs : ∀ r, (s r).embBuf = x) (r : Fin W) :
    (layerForward attnMlpParallel allReduce L s r).embBuf = groupLayer attnMlpParallel allReduce L x := by
  have hW : 1 ≤ W := Nat.one_le_iff_ne_zero.2 fun h => (h ▸ r).elim0
  simp only [layerForward, groupLayer, hs]
  by_cases h1 : 1 < W
  · cases attnMlpParallel <;> simp [h1]
  · have hred : ∀ v : Fin W → V, allReduce v = v r := fun v => hone (by omega) v r
    cases attnMlpParallel <;> simp [h1, hred]

/-- **The layer loop keeps the group consistent.** If every rank starts from
the same embedding `x`, after the loop every rank holds the layers of the
whole model applied to `x`. -/
theorem layerLoop_embBuf :
    ∀ (layers : List (LayerShards W V)) {s : Fin W → LayerBufs V} {x : V}, (∀ r, (s r).embBuf = x) →
      ∀ r, (layerLoop attnMlpParallel allReduce layers s r).embBuf =
        layers.foldl (fun x L => groupLayer attnMlpParallel allReduce L x) x
  | [], _, _, hs, r => hs r
  | L :: layers, _, _, hs, r =>
    layerLoop_embBuf layers (layerForward_embBuf attnMlpParallel allReduce hone L hs) r

end Layer

/-- Two ranks whose all-reduce is the sum and whose shards add their rank. -/
theorem layerLoop_embBuf_two :
    (layerLoop false (fun v : Fin 2 → ℕ => v 0 + v 1) [⟨fun r x => x + r, fun r i a => i + a + r⟩]
      (fun _ => ⟨3, 0, 0⟩) 1).embBuf =
      [(⟨fun r x => x + r, fun r i a => i + a + r⟩ : LayerShards 2 ℕ)].foldl
        (fun x L => groupLayer false (fun v : Fin 2 → ℕ => v 0 + v 1) L x) 3 :=
  layerLoop_embBuf false _ (fun h => absurd h (by decide)) _ (fun _ => rfl) 1

end XftDecoder
