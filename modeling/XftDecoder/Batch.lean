/-
# The continuous-batch `forward`: the last tokens of each sequence, in place

`forward(seqs, logitsAll)` concatenates the new tokens of all sequences into
`embBuf` (sequence `b` owns the `l_b = seqs[b]->getInputSeqLen()` rows after
those of the sequences before it) and runs every layer on them. For prompts
without `logitsAll` the predictor only needs one row per sequence, the last
of its new tokens: lines 646-653 move row `l_0 + ... + l_b - 1` to row `b`,
in `embBuf` itself, for `b = 0, 1, ...`.

The move is safe because each source row is at least the row it goes to and
the sources increase with `b`: every source is read before anything writes it
(`gatherLastTokensBatch_before`), row `b` ends up holding the last new token
of sequence `b` (`gatherLastTokensBatch_row`), and the final norm reads
exactly those rows, in batch order (`batch_lnRows`).

The buffer sizing of this path, `prepareBuffer`, which rounds in `float`, is
in `BatchBuffer`; the decoder block is left out.

Key definitions: `SequenceMeta`, `logitRows`, `gatherLastTokensBatch`, `batchLnRows`.
Key theorems: `gatherLastTokensBatch_row`, `gatherLastTokensBatch_before`, `batch_lnRows`.
-/
import XftDecoder.Memory
import Mathlib

namespace XftDecoder

/-- The fields of `xft::SequenceMeta` that `forward(seqs)` reads. -/
structure SequenceMeta where
  inputSeqLen : ℕ
  pastSeqLen : ℕ
  step : ℕ
  deriving DecidableEq, Repr

/-- `totInputSeqLen` (lines 604-612): the new tokens of the whole batch. -/
def totInputSeqLen (seqs : List SequenceMeta) : ℕ := (seqs.map (·.inputSeqLen)).sum

/-- The rows the final norm and the predictor work on (line 618). -/
def logitRows (seqs : List SequenceMeta) (logitsAll : Bool) : ℕ :=
  if logitsAll = false ∧ (seqs.head?.map (·.step)) = some 0 then seqs.length
  else totInputSeqLen seqs

variable {α : Type}

/-- Lines 647-652 from sequence `b` on, with `seen` the new tokens of the
sequences before it (`offset + 1` of the source): row `b` takes row
`seen + l_b - 1`, then the loop moves to `b + 1`. -/
def gatherLastTokensBatch (H : ℕ) : ℕ → ℕ → List ℕ → Mem α → Mem α
  | _, _, [], m => m
  | b, seen, l :: ls, m => gatherLastTokensBatch H (b + 1) (seen + l) ls (copyRow H m b (seen + l - 1))

/-- Lines 645-665: the rows `forward(seqs)` hands to `lastLayerNormForward`. -/
def batchLnRows (H : ℕ) (seqs : List SequenceMeta) (logitsAll : Bool) (m : Mem α) :
    List (List α) :=
  let lnIn := if logitRows seqs logitsAll ≠ totInputSeqLen seqs then
    gatherLastTokensBatch H 0 0 (seqs.map (·.inputSeqLen)) m else m
  (List.range (logitRows seqs logitsAll)).map (rowAt H lnIn)

/-- A prefix of `i + 1` lengths of at least one token holds at least `i + 1` tokens. -/
theorem le_sum_take : ∀ (ls : List ℕ), (∀ l ∈ ls, 1 ≤ l) → ∀ i < ls.length,
    i + 1 ≤ (ls.take (i + 1)).sum
  | [], _, _, h => absurd h (Nat.not_lt_zero _)
  | l :: ls, hl, i, hi => by
    have h1 := hl l (List.mem_cons_self _ _)
    cases i with
    | zero => simpa using h1
    | succ i =>
      have := le_sum_take ls (fun x hx => hl x (List.mem_cons_of_mem _ hx)) i
        (by simpa using hi)
      simp only [List.take_succ_cons, List.sum_cons]
      omega

/-- The loop writes rows `b` to `b + |ls| - 1` only. -/
theorem gatherLastTokensBatch_frame (H : ℕ) : ∀ (ls : List ℕ) (b seen r j : ℕ) (m : Mem α),
    j < H → (r < b ∨ b + ls.length ≤ r) →
      gatherLastTokensBatch H b seen ls m (r * H + j) = m (r * H + j)
  | [], _, _, _, _, _, _, _ => rfl
  | l :: ls, b, seen, r, j, m, hj, hr => by
    rw [gatherLastTokensBatch, gatherLastTokensBatch_frame H ls _ _ r j _ hj
      (by simp only [List.length_cons] at hr; omega), copyRow_other m _ (by simp at hr; omega) hj]

/-- **The gather**, from sequence `b` on: when no row before `seen` is still to
be read, row `b + i` ends up holding the last new token of the `i`-th
sequence, row `seen + l_0 + ... + l_i - 1`. -/
theorem gatherLastTokensBatch_row (H : ℕ) : ∀ (ls : List ℕ) (b seen : ℕ) (m : Mem α),
    (∀ l ∈ ls, 1 ≤ l) → b ≤ seen → ∀ i < ls.length, ∀ j < H,
      gatherLastTokensBatch H b seen ls m ((b + i) * H + j) =
        m ((seen + (ls.take (i + 1)).sum - 1) * H + j)
  | [], _, _, _, _, _, i, hi, _, _ => absurd hi (Nat.not_lt_zero _)
  | l :: ls, b, seen, m, hl, hb, i, hi, j, hj => by
    have h1 := hl l (List.mem_cons_self _ _)
    have hls : ∀ x ∈ ls, 1 ≤ x := fun x hx => hl x (List.mem_cons_of_mem _ hx)
    rw [gatherLastTokensBatch]
    cases i with
    | zero =>
      rw [gatherLastTokensBatch_frame H ls _ _ _ _ _ hj (by omega), Nat.add_zero,
        copyRow_same m _ _ hj]
      simp
    | succ i =>
      have hi' : i < ls.length := by simpa using hi
      have hs := le_sum_take ls hls i hi'
      rw [show b + (i + 1) = b + 1 + i by omega,
        gatherLastTokensBatch_row H ls _ _ _ hls (by omega) i hi' j hj,
        copyRow_other m _ (by omega) hj]
      simp only [List.take_succ_cons, List.sum_cons]
      congr 3
      omega

/-- **Every source is read before it is written.** At the start of iteration
`i`, the row it copies from still holds its value from before the loop. -/
theorem gatherLastTokensBatch_before (H : ℕ) (ls : List ℕ) (m : Mem α)
    (hl : ∀ l ∈ ls, 1 ≤ l) (i : ℕ) (hi : i < ls.length) {j : ℕ} (hj : j < H) :
    gatherLastTokensBatch H 0 0 (ls.take i) m (((ls.take (i + 1)).sum - 1) * H + j) =
      m (((ls.take (i + 1)).sum - 1) * H + j) := by
  have := le_sum_take ls hl i hi
  exact gatherLastTokensBatch_frame H _ _ _ _ _ m hj
    (Or.inr (by simp only [List.length_take]; omega))

/-- **The rows of the final norm.** For a batch of prompts without
`logitsAll`, with more new tokens than sequences, the final norm and the
predictor read exactly the last new token of each sequence, in batch order. -/
theorem batch_lnRows (H : ℕ) (seqs : List SequenceMeta) (m : Mem α)
    (hstep : (seqs.head?.map (·.step)) = some 0) (hl : ∀ s ∈ seqs, 1 ≤ s.inputSeqLen)
    (hsum : seqs.length < totInputSeqLen seqs) :
    batchLnRows H seqs false m = (List.range seqs.length).map fun b =>
      rowAt H m (((seqs.map (·.inputSeqLen)).take (b + 1)).sum - 1) := by
  have hrows : logitRows seqs false = seqs.length := by simp [logitRows, hstep]
  simp only [batchLnRows, hrows, if_pos (Nat.ne_of_lt hsum)]
  refine List.map_congr_left fun b hb => rowAt_congr fun j hj => ?_
  simpa using gatherLastTokensBatch_row H (seqs.map (·.inputSeqLen)) 0 0 m
    (by simpa using hl) le_rfl b (by simpa using hb) j hj

end XftDecoder
