/-
# The rows the final norm reads, and the beam replication of the logits

After the layer loop `embBuf` holds one final hidden state per new token: row
`b * inputSeqLen + i` is new token `i` of batch item `b`. `forward` hands
`lastLayerNormForward` either the last new token of each item, gathered into
`outBuf` (lines 505-515), or every row (`logitsAll`), and the predictor reads
what the norm wrote back, row by row, into `embBuf` (lines 529-551). At step 0
with beams, the predictor's row of each prompt is then copied over the rows of
its beams, in place, from the last prompt to the first (lines 571-582).

Without `logitsAll` the norm reads exactly the last-token states
(`lnRows_last`); with it, the rows of every new token when no prefix is split
off (`lnRows_all`). Under prefix sharing at step 0 the row count is
`batchSize * seqLen`, larger than the `batchSize * inputSeqLen` rows computed
(`prefix_logitsAll_rows`). The beam replication leaves row `r` equal to the
predictor's row `r / beamSize` (`expandBeams_rows`): no source row is read
after it is overwritten, no copy of the parallel inner loop writes the row its
copies read (the `idx == b` skip, `replicateCopies`), and that loop gives the
same rows in any order.

Key definitions: `gatherLastTokens`, `lnRows`, `replicateCopies`, `replicateRows`, `expandBeams`.
Key theorems: `gatherLastTokens_row`, `replicateRows_row`, `expandBeams_rows`.
-/
import XftDecoder.Memory
import XftDecoder.Decoder

namespace XftDecoder

variable {α : Type}

/-! ### The last-token gather -/

/-- Lines 508-515: row `b` of `outBuf`, which starts after the
`batchSize * inputSeqLen` rows of `embBuf`, takes row
`(b + 1) * inputSeqLen - 1` of `embBuf`, for each `b < batchSize`. -/
def gatherLastTokens (H B L : ℕ) (m : Mem α) : Mem α :=
  (List.range B).foldl (fun m b => copyRow H m (B * L + b) ((b + 1) * L - 1)) m

theorem lastToken_lt {B L c : ℕ} (hL : 1 ≤ L) (hc : c < B) : (c + 1) * L - 1 < B * L := by
  have h1 : (c + 1) * L ≤ B * L := Nat.mul_le_mul_right L hc
  have h2 : L ≤ (c + 1) * L := Nat.le_mul_of_pos_left L (Nat.succ_pos c)
  omega

/-- The gather over the items `bs`, each below `B`: row `B * L + b` takes the
last token of item `b`, and every other row is left as it was. -/
theorem gatherLastTokens_foldl {H B L : ℕ} (hL : 1 ≤ L) :
    ∀ (bs : List ℕ) (m : Mem α), (∀ b ∈ bs, b < B) → ∀ r j, j < H →
      bs.foldl (fun m b => copyRow H m (B * L + b) ((b + 1) * L - 1)) m (r * H + j) =
        if B * L ≤ r ∧ r - B * L ∈ bs then m (((r - B * L + 1) * L - 1) * H + j)
        else m (r * H + j)
  | [], m, _, r, j, _ => by simp
  | b :: bs, m, hb, r, j, hj => by
    have hb0 := hb b (List.mem_cons_self _ _)
    rw [List.foldl_cons, gatherLastTokens_foldl hL bs _ (fun c hc => hb c (List.mem_cons_of_mem _ hc))
      r j hj]
    by_cases hs : B * L ≤ r ∧ r - B * L ∈ bs
    · have hlt := lastToken_lt hL (hb _ (List.mem_cons_of_mem _ hs.2))
      rw [if_pos hs, if_pos ⟨hs.1, List.mem_cons_of_mem _ hs.2⟩, copyRow_other m _ (by omega) hj]
    · rw [if_neg hs]
      by_cases hr : r = B * L + b
      · subst hr
        rw [copyRow_same m _ _ hj, if_pos ⟨Nat.le_add_right _ _, by simp⟩, Nat.add_sub_cancel_left]
      · rw [copyRow_other m _ hr hj, if_neg]
        rintro ⟨h1, h2⟩
        rcases List.mem_cons.1 h2 with h | h
        · omega
        · exact hs ⟨h1, h⟩

/-- **The gather**: row `b` of `outBuf`, row `B * L + b` of the buffer, is
the last new token of item `b`, and `embBuf` is left as it was. -/
theorem gatherLastTokens_row {H B L : ℕ} (hL : 1 ≤ L) (m : Mem α) {j : ℕ} (hj : j < H) :
    (∀ b < B, gatherLastTokens H B L m ((B * L + b) * H + j) = m (((b + 1) * L - 1) * H + j)) ∧
      ∀ r < B * L, gatherLastTokens H B L m (r * H + j) = m (r * H + j) := by
  refine ⟨fun b hb => ?_, fun r hr => ?_⟩
  · rw [gatherLastTokens, gatherLastTokens_foldl hL _ _ (fun c hc => List.mem_range.1 hc) _ _ hj,
      if_pos ⟨Nat.le_add_right _ _, by simpa using hb⟩, Nat.add_sub_cancel_left]
  · rw [gatherLastTokens, gatherLastTokens_foldl hL _ _ (fun c hc => List.mem_range.1 hc) _ _ hj,
      if_neg (by omega)]

/-! ### The rows of the final norm -/

/-- Lines 507-515: the buffer `lnIn` is read from, after the gather when there
is one, and its first row: `outBuf` when the last tokens are gathered, else
`embBuf`. -/
def lnIn (H : ℕ) (sh : Shape) (logitsAll : Bool) (m : Mem α) : Mem α × ℕ :=
  if 1 < sh.inputSeqLen ∧ logitsAll = false then
    (gatherLastTokens H sh.batchSize sh.inputSeqLen m, sh.batchSize * sh.inputSeqLen)
  else (m, 0)

/-- The row count `forward` passes to `lastLayerNormForward` and to the
predictor (lines 531-534, 548-551). -/
def lnRowCount (sh : Shape) (logitsAll : Bool) : ℕ :=
  if logitsAll then sh.batchSize * sh.seqLen else sh.batchSize

/-- The rows `forward` hands to `lastLayerNormForward`, in order. -/
def lnRows (H : ℕ) (sh : Shape) (logitsAll : Bool) (m : Mem α) : List (List α) :=
  (List.range (lnRowCount sh logitsAll)).map fun i => rowAt H (lnIn H sh logitsAll m).1
    ((lnIn H sh logitsAll m).2 + i)

/-- Without `logitsAll` the norm reads the last new token of each item. -/
theorem lnRows_last (H : ℕ) (sh : Shape) (m : Mem α) (hL : 1 ≤ sh.inputSeqLen) :
    lnRows H sh false m =
      (List.range sh.batchSize).map fun b => rowAt H m ((b + 1) * sh.inputSeqLen - 1) := by
  simp only [lnRows, lnRowCount, lnIn, Bool.false_eq_true, if_false, and_true]
  refine List.map_congr_left fun b hb => ?_
  split_ifs with h
  · exact rowAt_congr fun j hj =>
      (gatherLastTokens_row hL m hj).1 b (List.mem_range.1 hb)
  · have : sh.inputSeqLen = 1 := by omega
    simp [this]

/-- With `logitsAll` and no prefix split off, the norm reads every new token. -/
theorem lnRows_all (H : ℕ) (sh : Shape) (m : Mem α) (hs : sh.seqLen = sh.inputSeqLen) :
    lnRows H sh true m = (List.range (sh.batchSize * sh.inputSeqLen)).map (rowAt H m) := by
  simp [lnRows, lnRowCount, lnIn, hs]

/-- Under prefix sharing at step 0 with `logitsAll`: a prefix of 2 tokens and a
prompt of 4 leave 2 new rows, and the norm is handed 4. -/
theorem prefix_logitsAll_rows (p : CommonDecoder → ℕ → ℕ) (ctx : DecoderContext) (m : Mem α) :
    let sh := (forwardBegin (setPrefix p (CommonDecoder.init ctx) 2) ⟨1, 1, 4⟩ 0 true).1
    sh.batchSize * sh.inputSeqLen = 2 ∧ (lnRows ctx.hiddenSize sh true m).length = 4 := by
  simp [forwardBegin_batchSize, forwardBegin_inputSeqLen, setPrefix, prefixForward, lnRows,
    lnRowCount, forwardBegin_seqLen]

/-! ### The beam replication -/

/-- The row copies `(dst, src)` of the inner loop of the beam replication
for prompt `b` (lines 575-580), over the beam rows `idxs`: iteration `idx`
skips row `b` itself (`continue`) and otherwise copies row `b` over row `idx`. -/
def replicateCopies (b : ℕ) (idxs : List ℕ) : List (ℕ × ℕ) :=
  idxs.filterMap fun idx => if idx = b then none else some (idx, b)

/-- The inner loop, its copies made one after another. -/
def replicateRows (S b : ℕ) (idxs : List ℕ) (m : Mem α) : Mem α :=
  (replicateCopies b idxs).foldl (fun m c => copyRow S m c.1 c.2) m

/-- The outer loop (lines 572-582): `expandBeams S K u m` runs the
iterations `b = u - 1` down to `0`, iteration `b` over the beam rows
`[b * K, (b + 1) * K)`. `forward` runs `expandBeams splitSize beamSize userSideBS`. -/
def expandBeams (S K : ℕ) : ℕ → Mem α → Mem α
  | 0, m => m
  | b + 1, m => expandBeams S K b (replicateRows S b (List.range' (b * K) K) m)

/-- The logits buffer at the start of iteration `b` of `expandBeams S K u m`:
the iterations `u - 1` down to `b + 1` done. -/
def beamsBefore (S K b : ℕ) : ℕ → Mem α → Mem α
  | 0, m => m
  | u + 1, m => if b < u then beamsBefore S K b u (replicateRows S u (List.range' (u * K) K) m) else m

theorem copyRow_zero (m : Mem α) (dst src : ℕ) : copyRow 0 m dst src = m := by
  funext k; simp [copyRow, memcpy]

/-- Every copy of the inner loop for prompt `b` reads row `b` and writes a
beam row other than `b`. -/
theorem mem_replicateCopies {b : ℕ} {idxs : List ℕ} {c : ℕ × ℕ} :
    c ∈ replicateCopies b idxs ↔ c.1 ∈ idxs ∧ c.1 ≠ b ∧ c.2 = b := by
  obtain ⟨dst, src⟩ := c
  simp only [replicateCopies, List.mem_filterMap]
  constructor
  · rintro ⟨idx, hidx, h⟩
    split_ifs at h with hib
    cases h
    exact ⟨hidx, hib, rfl⟩
  · rintro ⟨hdst, hne, rfl⟩
    exact ⟨dst, hdst, if_neg hne⟩

/-- The rows the inner loop writes: the beam rows other than `b`. -/
theorem mem_map_fst_replicateCopies {b r : ℕ} {idxs : List ℕ} :
    r ∈ (replicateCopies b idxs).map Prod.fst ↔ r ∈ idxs ∧ r ≠ b := by
  simp only [List.mem_map, mem_replicateCopies]
  constructor
  · rintro ⟨c, ⟨hc, hne, -⟩, rfl⟩
    exact ⟨hc, hne⟩
  · rintro ⟨hr, hne⟩
    exact ⟨(r, b), ⟨hr, hne, rfl⟩, rfl⟩

/-- Copies that all read row `b` and none of which writes it, made one after
another: each row written holds row `b`, every other row is as it was. -/
theorem foldl_copyRow_row {S b r j : ℕ} (hj : j < S) :
    ∀ (cs : List (ℕ × ℕ)) (m : Mem α), (∀ c ∈ cs, c.1 ≠ b ∧ c.2 = b) →
      cs.foldl (fun m c => copyRow S m c.1 c.2) m (r * S + j) =
        if r ∈ cs.map Prod.fst then m (b * S + j) else m (r * S + j)
  | [], m, _ => by simp
  | c :: cs, m, hcs => by
    obtain ⟨hdst, hsrc⟩ := hcs c (List.mem_cons_self _ _)
    rw [List.foldl_cons, foldl_copyRow_row hj cs _ fun c' hc' => hcs c' (List.mem_cons_of_mem _ hc'),
      copyRow_other m _ (Ne.symm hdst) hj, hsrc]
    by_cases hr : r = c.1
    · subst hr
      simp [copyRow_same m _ _ hj]
    · simp only [copyRow_other m _ hr hj, List.map_cons, List.mem_cons, hr, false_or]

/-- The inner loop over any list of rows: each row of the list other than `b`
holds row `b`, and every other row is left as it was. -/
theorem replicateRows_row (S b : ℕ) (idxs : List ℕ) (m : Mem α) (r j : ℕ) (hj : j < S) :
    replicateRows S b idxs m (r * S + j) =
      if r ∈ idxs ∧ r ≠ b then m (b * S + j) else m (r * S + j) := by
  rw [replicateRows, foldl_copyRow_row hj _ m fun c hc => (mem_replicateCopies.1 hc).2]
  simp only [mem_map_fst_replicateCopies]

/-- **The parallel inner loop gives the same rows in any order**: every
iteration reads row `b`, which none writes. -/
theorem replicateRows_perm (S b : ℕ) {l l' : List ℕ} (h : l.Perm l') (m : Mem α) :
    replicateRows S b l m = replicateRows S b l' m := by
  rcases Nat.eq_zero_or_pos S with rfl | hS
  · have h0 : ∀ l : List ℕ, replicateRows 0 b l m = m := fun l => by
      simp [replicateRows, copyRow_zero]
    rw [h0, h0]
  · funext k
    obtain ⟨r, j, hj, rfl⟩ := exists_row_col hS k
    simp only [replicateRows_row S b l m _ _ hj, replicateRows_row S b l' m _ _ hj, h.mem_iff]

/-- A row below the beam rows of prompt `u` is not written by iteration `u`. -/
theorem replicateRows_low {S K u r j : ℕ} (hK : 1 ≤ K) (m : Mem α) (hr : r < u) (hj : j < S) :
    replicateRows S u (List.range' (u * K) K) m (r * S + j) = m (r * S + j) := by
  have : u ≤ u * K := Nat.le_mul_of_pos_right u hK
  rw [replicateRows_row S u _ m r j hj, if_neg (by rw [List.mem_range'_1]; omega)]

/-- The source row of iteration `b` still holds the predictor's row `b` when
the iteration reads it. -/
theorem beamsBefore_source {S K b j : ℕ} (hK : 1 ≤ K) (hj : j < S) :
    ∀ (u : ℕ) (m : Mem α), beamsBefore S K b u m (b * S + j) = m (b * S + j)
  | 0, _ => rfl
  | u + 1, m => by
    rw [beamsBefore]
    split_ifs with hb
    · rw [beamsBefore_source hK hj u, replicateRows_low hK m hb hj]
    · rfl

/-- What the iterations from `n - 1` down to `0` need: rows below `n` hold the
predictor's rows, and rows from `n * K` on already hold their prompt's row. -/
theorem expandBeams_of_inv {S K U : ℕ} (hK : 2 ≤ K) (m₀ : Mem α) :
    ∀ (n : ℕ) (m : Mem α), (∀ r < n, ∀ j < S, m (r * S + j) = m₀ (r * S + j)) →
      (∀ r, n * K ≤ r → r < U * K → ∀ j < S, m (r * S + j) = m₀ (r / K * S + j)) →
      ∀ r < U * K, ∀ j < S, expandBeams S K n m (r * S + j) = m₀ (r / K * S + j)
  | 0, m, _, hhi, r, hr, j, hj => hhi r (by simp) hr j hj
  | n + 1, m, hlo, hhi, r, hr, j, hj => by
    have hnK : n ≤ n * K := Nat.le_mul_of_pos_right n (by omega)
    refine expandBeams_of_inv hK m₀ n _ (fun r' hr' j' hj' => ?_) (fun r' h1 h2 j' hj' => ?_) r hr j hj
    · rw [replicateRows_low (by omega) m hr' hj', hlo r' (by omega) j' hj']
    · rw [replicateRows_row S n _ m r' j' hj']
      simp only [List.mem_range'_1]
      split_ifs with hin
      · rw [Nat.div_eq_of_lt_le (k := n) (by omega) (by rw [Nat.succ_mul]; omega),
          hlo n (by omega) j' hj']
      · by_cases hr'n : r' = n
        · subst hr'n
          have : r' * 2 ≤ r' * K := Nat.mul_le_mul_left r' hK
          obtain rfl : r' = 0 := by omega
          rw [Nat.zero_div, hlo 0 (by omega) j' hj']
        · exact hhi r' (by rw [Nat.succ_mul]; omega) h2 j' hj'

/-- **The beam replication.** After the loop, row `r < userSideBS * beamSize`
of the logits holds the predictor's row `r / beamSize`; the source row of
every iteration still holds the predictor's row when it is read; no copy of
the parallel inner loop of an iteration writes the row that a copy of it
reads, so none writes the row it copies from; and that loop gives the same
rows in any order of its iterations. -/
theorem expandBeams_rows (U K S : ℕ) (hK : 2 ≤ K) (m : Mem α) :
    (∀ r < U * K, ∀ j < S, expandBeams S K U m (r * S + j) = m (r / K * S + j)) ∧
    (∀ b < U, ∀ j < S, beamsBefore S K b U m (b * S + j) = m (b * S + j)) ∧
    (∀ b < U, ∀ c ∈ replicateCopies b (List.range' (b * K) K),
      ∀ c' ∈ replicateCopies b (List.range' (b * K) K), c.1 ≠ c'.2) ∧
    (∀ b < U, ∀ l : List ℕ, l.Perm (List.range' (b * K) K) → ∀ m' : Mem α,
      replicateRows S b l m' = replicateRows S b (List.range' (b * K) K) m') :=
  ⟨expandBeams_of_inv hK m U m (fun _ _ _ _ => rfl) (fun r h1 h2 => absurd h2 (by omega)),
    fun _ _ _ hj => beamsBefore_source (by omega) hj U m,
    fun _ _ c hc c' hc' => (mem_replicateCopies.1 hc').2.2 ▸ (mem_replicateCopies.1 hc).2.1,
    fun b _ _ hl m' => replicateRows_perm S b hl m'⟩

/-- Two prompts, three beams, rows of two floats holding their offsets: row 5,
a beam of the second prompt, holds row 1. -/
theorem expandBeams_rows_two_prompts :
    expandBeams 2 3 2 (fun k : ℕ => k) (5 * 2 + 1) = 5 / 3 * 2 + 1 :=
  (expandBeams_rows 2 3 2 (by decide) (fun k : ℕ => k)).1 5 (by decide) 1 (by decide)

end XftDecoder
