/-
# The token IDs a call reads, and the prefix split

With prefix sharing on, the first call of a generation (`step == 0`) gets
`userSideBS` rows of `seqLen` token IDs, each starting with the shared prefix
of `prefixSeqLen` tokens whose keys and values `prefixForward` has cached.
Lines 337-351 split each row `bs`: its first `pastSeqLen` IDs go to row `bs`
of `prefixIDs`, for the position hook, and the other `inputSeqLen` to row
`bs` of `newIDs`, which the embedding, the mask hook and the position hook
then read in place of `ids`.

The split loses, duplicates and moves nothing: joined back, row `b` of
`prefixIDs` and row `b` of `newIDs` are row `b` of the caller's `ids`
(`splitPrefixIds_rows`). So in every call, at the widths of the call's shape
(`forwardBegin`), the embedding reads each request's own tokens after the
prefix, in order (`forward_ids_rows`).

Key definitions: `memcpyFrom`, `splitPrefixIds`, `forwardIds`.
Key theorems: `rowAt_memcpyFrom`, `splitPrefixIds_rows`, `forward_ids_rows`.
-/
import XftDecoder.Memory
import XftDecoder.Decoder

namespace XftDecoder

variable {α : Type}

/-- `memcpy(dst + d, src + s, n)` from one buffer into another, counted in
elements. -/
def memcpyFrom (dst src : Mem α) (d s n : ℕ) : Mem α :=
  fun k => if d ≤ k ∧ k < d + n then src (s + (k - d)) else dst k

/-- A copy into row `k` of width `H` writes that row with the `H` values
from `s` on, and leaves every other row alone. -/
theorem rowAt_memcpyFrom (m src : Mem α) (H k s b : ℕ) :
    rowAt H (memcpyFrom m src (H * k) s H) b =
      if b = k then (List.range H).map (fun j => src (s + j)) else rowAt H m b := by
  unfold rowAt
  split_ifs with h
  · subst h
    apply List.map_congr_left
    intro j hj
    simp only [memcpyFrom, Nat.mul_comm H b]
    rw [if_pos ((row_mem_iff (List.mem_range.1 hj)).2 rfl), Nat.add_sub_cancel_left]
  · apply List.map_congr_left
    intro j hj
    have hout : ¬ (H * k ≤ b * H + j ∧ b * H + j < H * k + H) := by
      rw [Nat.mul_comm H k]; exact mt (row_mem_iff (List.mem_range.1 hj)).1 h
    simp only [memcpyFrom, if_neg hout]

/-- The loop of lines 343-346 over its first `bs` rows, into the fresh
buffers `prefixIDs` and `newIDs`. -/
def splitPrefixIds (ids : Mem ℤ) (seqLen pastSeqLen inputSeqLen : ℕ) (prefixIDs newIDs : Mem ℤ) :
    ℕ → Mem ℤ × Mem ℤ
  | 0 => (prefixIDs, newIDs)
  | bs + 1 =>
    let s := splitPrefixIds ids seqLen pastSeqLen inputSeqLen prefixIDs newIDs bs
    (memcpyFrom s.1 ids (pastSeqLen * bs) (seqLen * bs) pastSeqLen,
      memcpyFrom s.2 ids (inputSeqLen * bs) (seqLen * bs + pastSeqLen) inputSeqLen)

/-- **The split is lossless.** When a row is its prefix and its new tokens,
row `b` of `prefixIDs`, then row `b` of `newIDs`, is row `b` of `ids`, for
every row the loop has split. -/
theorem splitPrefixIds_rows {ids prefixIDs newIDs : Mem ℤ} {seqLen pastSeqLen inputSeqLen : ℕ}
    (hlen : pastSeqLen + inputSeqLen = seqLen) {b : ℕ} :
    ∀ {bs : ℕ}, b < bs →
      rowAt pastSeqLen (splitPrefixIds ids seqLen pastSeqLen inputSeqLen prefixIDs newIDs bs).1 b ++
        rowAt inputSeqLen (splitPrefixIds ids seqLen pastSeqLen inputSeqLen prefixIDs newIDs bs).2 b =
          rowAt seqLen ids b
  | 0, hb => absurd hb (Nat.not_lt_zero b)
  | bs + 1, hb => by
    simp only [splitPrefixIds, rowAt_memcpyFrom]
    split_ifs with h
    · subst h
      rw [rowAt, Nat.mul_comm b seqLen, show List.range seqLen = List.range (pastSeqLen + inputSeqLen) by
        rw [hlen], List.range_add, List.map_append, List.map_map]
      congr 1
      exact List.map_congr_left fun j _ => by simp only [Function.comp_apply, Nat.add_assoc]
    · exact splitPrefixIds_rows hlen (by omega)

/-- Lines 337-351: the IDs the hooks read in a call of `forward`, from the
caller's `ids` and the fresh buffers `prefixIDs` and `newIDs`. On the first
call with prefix sharing, the prefix rows passed to `getPositionIds`, and the
new tokens, which replace `ids`; on any other call, `ids` itself. -/
def forwardIds (d : CommonDecoder) (dims : Dims) (step : ℕ) (ids prefixIDs newIDs : Mem ℤ) :
    Mem ℤ × Mem ℤ :=
  if step = 0 ∧ d.prefixSharing then
    splitPrefixIds ids dims.seqLen d.prefixSeqLen (dims.seqLen - d.prefixSeqLen) prefixIDs newIDs
      dims.userSideBS
  else (prefixIDs, ids)

/-- **Every call reads each request's own tokens.** In every call whose
shared prefix, if it splits one, fits in the sequence, each of the call's
`batchSize` rows of IDs the embedding reads, at the call's `inputSeqLen`,
preceded on a first call with prefix sharing by the row of the call's
`pastSeqLen` prefix IDs, is the caller's row. -/
theorem forward_ids_rows (d : CommonDecoder) (dims : Dims) (step : ℕ) (la : Bool) (ids prefixIDs newIDs : Mem ℤ)
    (hpre : step = 0 → d.prefixSharing → d.prefixSeqLen ≤ dims.seqLen)
    {b : ℕ} (hb : b < (forwardBegin d dims step la).1.batchSize) :
    (if step = 0 ∧ d.prefixSharing then
        rowAt (forwardBegin d dims step la).1.pastSeqLen (forwardIds d dims step ids prefixIDs newIDs).1 b
      else []) ++
      rowAt (forwardBegin d dims step la).1.inputSeqLen (forwardIds d dims step ids prefixIDs newIDs).2 b =
        rowAt dims.seqLen ids b := by
  rw [forwardBegin_inputSeqLen, forwardBegin_pastSeqLen, forwardIds]
  by_cases hs : step = 0 ∧ d.prefixSharing
  · rw [forwardBegin_batchSize, if_pos hs.1] at hb
    simp only [if_pos hs, if_pos hs.1, if_pos hs.2]
    exact splitPrefixIds_rows (by have := hpre hs.1 hs.2; omega) hb
  · simp only [if_neg hs, List.nil_append]

/-- A decoder after `setPrefix` with a prefix of 2 tokens. -/
def prefixTwo : CommonDecoder := setPrefix (fun d _ => d.maskSize) (CommonDecoder.init ⟨0, 0, 0, 2, 8, 16⟩) 2

/-- Two rows of 5 IDs: row `b`, column `j` holds `10 * b + j`. -/
def twoRows : Mem ℤ := fun k => ((10 * (k / 5) + k % 5 : ℕ) : ℤ)

/-- A first call after `setPrefix`: row 1 is `11, 12`, then `13, 14, 15`. -/
theorem forward_ids_rows_prefix :
    (if 0 = 0 ∧ prefixTwo.prefixSharing then
        rowAt (forwardBegin prefixTwo ⟨2, 1, 5⟩ 0 false).1.pastSeqLen
          (forwardIds prefixTwo ⟨2, 1, 5⟩ 0 twoRows (fun _ => 0) (fun _ => 0)).1 1
      else []) ++
      rowAt (forwardBegin prefixTwo ⟨2, 1, 5⟩ 0 false).1.inputSeqLen
        (forwardIds prefixTwo ⟨2, 1, 5⟩ 0 twoRows (fun _ => 0) (fun _ => 0)).2 1 =
        rowAt 5 twoRows 1 :=
  forward_ids_rows prefixTwo ⟨2, 1, 5⟩ 0 false twoRows _ _ (fun _ _ => by decide) (by decide)

end XftDecoder
