/-
# Flat buffers and the copies the decoder makes in them

The decoder addresses its buffers through raw pointers: `actBuffers` holds the
embedding rows, then `outBuf`, into which the predictor writes the logits
through `finalOut`; the attention mask is a float array; `xft::addto` works on
two arrays. A buffer here is a function from element offsets to values
(`Mem`), and `memcpy`, `memset` and `std::fill_n` are updates of one range of
it. A row of width `H` starts at offset `r * H`; `copyRow` is the row copy
`memcpy(buf + dst * H, buf + src * H, H)` that every loop of `forward` makes.

Key definitions: `Mem`, `memcpy`, `fill`, `copyRow`, `rowAt`.
Key theorems: `row_mem_iff`, `copyRow_same`, `copyRow_other`.
-/
import Mathlib.Data.List.Perm.Basic

namespace XftDecoder

/-- A buffer: the value held at each element offset. -/
def Mem (α : Type) := ℕ → α

variable {α : Type}

/-- `memcpy(dst, src, n)`, counted in elements: the offsets `[dst, dst + n)`
take the values at `[src, src + n)`. -/
def memcpy (m : Mem α) (dst src n : ℕ) : Mem α :=
  fun k => if dst ≤ k ∧ k < dst + n then m (src + (k - dst)) else m k

/-- `memset(p, v, n)` and `std::fill_n(p, n, v)`: the offsets `[p, p + n)` take `v`. -/
def fill (m : Mem α) (p n : ℕ) (v : α) : Mem α :=
  fun k => if p ≤ k ∧ k < p + n then v else m k

theorem memcpy_of_mem {m : Mem α} {dst src n k : ℕ} (h : dst ≤ k ∧ k < dst + n) :
    memcpy m dst src n k = m (src + (k - dst)) := if_pos h

theorem memcpy_of_not_mem {m : Mem α} {dst src n k : ℕ} (h : ¬ (dst ≤ k ∧ k < dst + n)) :
    memcpy m dst src n k = m k := if_neg h

theorem fill_of_mem {m : Mem α} {p n k : ℕ} {v : α} (h : p ≤ k ∧ k < p + n) :
    fill m p n v k = v := if_pos h

theorem fill_of_not_mem {m : Mem α} {p n k : ℕ} {v : α} (h : ¬ (p ≤ k ∧ k < p + n)) :
    fill m p n v k = m k := if_neg h

/-! ### Rows -/

/-- Offset `r * H + j` with `j < H` lies in row `d` exactly when `r = d`. -/
theorem row_mem_iff {H r d j : ℕ} (hj : j < H) :
    (d * H ≤ r * H + j ∧ r * H + j < d * H + H) ↔ r = d := by
  constructor
  · rintro ⟨h1, h2⟩
    rcases Nat.lt_trichotomy r d with h | h | h
    · have : (r + 1) * H ≤ d * H := Nat.mul_le_mul_right H h
      rw [Nat.succ_mul] at this; omega
    · exact h
    · have : (d + 1) * H ≤ r * H := Nat.mul_le_mul_right H h
      rw [Nat.succ_mul] at this; omega
  · rintro rfl; omega

/-- The row copy `memcpy(buf + dst * H, buf + src * H, H)`. -/
def copyRow (H : ℕ) (m : Mem α) (dst src : ℕ) : Mem α := memcpy m (dst * H) (src * H) H

theorem copyRow_same {H : ℕ} (m : Mem α) (dst src : ℕ) {j : ℕ} (hj : j < H) :
    copyRow H m dst src (dst * H + j) = m (src * H + j) := by
  rw [copyRow, memcpy_of_mem ((row_mem_iff hj).2 rfl), Nat.add_sub_cancel_left]

theorem copyRow_other {H : ℕ} (m : Mem α) {dst r : ℕ} (src : ℕ) (h : r ≠ dst) {j : ℕ}
    (hj : j < H) : copyRow H m dst src (r * H + j) = m (r * H + j) :=
  memcpy_of_not_mem (mt (row_mem_iff hj).1 h)

/-- Every offset is `r * H + j` for a row `r` and a column `j < H`. -/
theorem exists_row_col {H : ℕ} (hH : 0 < H) (k : ℕ) : ∃ r j, j < H ∧ k = r * H + j :=
  ⟨k / H, k % H, Nat.mod_lt k hH, by rw [Nat.mul_comm]; exact (Nat.div_add_mod k H).symm⟩

/-- Row `r` of width `H`, read as a list. -/
def rowAt (H : ℕ) (m : Mem α) (r : ℕ) : List α := (List.range H).map fun j => m (r * H + j)

theorem rowAt_congr {H : ℕ} {m m' : Mem α} {r r' : ℕ}
    (h : ∀ j < H, m (r * H + j) = m' (r' * H + j)) : rowAt H m r = rowAt H m' r' :=
  List.map_congr_left fun j hj => h j (List.mem_range.1 hj)

end XftDecoder
