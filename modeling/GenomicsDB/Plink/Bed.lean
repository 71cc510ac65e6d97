import GenomicsDB.Plink.Processor

/-!
# The BED packer

A BED file stores one row per variant, two bits per sample, four samples per byte,
the first sample in the low bits. The processor fills `bed_buf` one genotype code at
a time (`write_to_bed`), writes the byte out when it holds four codes, and at the end
of a variant row writes out a partly filled byte (`flush_to_bed`).

The abstract view of a sequence of these operations is its `rows`: the codes written
between two flushes, the rows already closed and the row still open. `pack` is what
a row should become on disk. The main results are

* `BedInv.apply`, `BedInv.run`: a forward simulation. After any run, the file holds the
  magic numbers, the packed closed rows and the full bytes of the open row; `bed_buf`
  holds the codes of the open row not yet written, and `bed_buf_state` counts them;
* `unpack_pack`: a packed row of `n` codes reads back, from its bytes and `n`, as
  itself;
* `bed_file_rows`: the whole file reads back, row by row, as the rows closed by a
  flush;
* `bed_file_row_at`: when every row holds the same number `n` of codes, seeking to row
  `i` at byte `3 + i * ⌈n / 4⌉`, as PLINK's readers do, reads the same row.

The arithmetic of `write_to_bed` wraps at `256` (`bed_buf` is a `char`); the invariant
that `bed_buf` has no bit at or above `2 * bed_buf_state` set is why it never does.
-/

namespace GenomicsDB

namespace GenomicsDBPlinkProcessor

/-- `flush_to_bed`: write out a partly filled byte. -/
def flushToBed (p : GenomicsDBPlinkProcessor) : GenomicsDBPlinkProcessor :=
  if p.bedBufState ≠ 0 then
    { p with bedFile := p.bedFile ++ [p.bedBuf], bedBuf := 0, bedBufState := 0 }
  else p

/-- `write_to_bed(x)`: `bed_buf += x << bed_buf_state * 2`, then
`++bed_buf_state %= 4`, writing the byte out when it is full. -/
def writeToBed (p : GenomicsDBPlinkProcessor) (x : ℕ) : GenomicsDBPlinkProcessor :=
  let bedBuf := (p.bedBuf + (x <<< (p.bedBufState * 2))) % 256
  let bedBufState := (p.bedBufState + 1) % 4
  if bedBufState = 0 then { p with bedFile := p.bedFile ++ [bedBuf], bedBuf := 0, bedBufState }
  else { p with bedBuf, bedBufState }

end GenomicsDBPlinkProcessor

/-- The calls the processor makes on its BED packer. -/
inductive BedOp where
  | writeToBed (x : ℕ)
  | flushToBed
  deriving DecidableEq, Repr

namespace BedOp

open GenomicsDBPlinkProcessor

/-- One call on the processor. -/
def apply (p : GenomicsDBPlinkProcessor) : BedOp → GenomicsDBPlinkProcessor
  | writeToBed x => p.writeToBed x
  | flushToBed => p.flushToBed

/-- A sequence of calls, in order. -/
def run (ops : List BedOp) (p : GenomicsDBPlinkProcessor) : GenomicsDBPlinkProcessor :=
  ops.foldl apply p

/-- One call on the rows: a write extends the open row, a flush closes it. -/
def rowStep : List (List ℕ) × List ℕ → BedOp → List (List ℕ) × List ℕ
  | (closed, row), writeToBed x => (closed, row ++ [x])
  | (closed, row), flushToBed => (closed ++ [row], [])

/-- The rows of a sequence of calls: the closed rows in order, and the open row. -/
def rows (ops : List BedOp) : List (List ℕ) × List ℕ := ops.foldl rowStep ([], [])

end BedOp

/-! ## Packing rows -/

/-- The byte holding the codes of `l`, the first in the low bits. -/
def packByte : List ℕ → ℕ
  | [] => 0
  | a :: l => a + 4 * packByte l

/-- A row on disk: one byte per four codes, the last byte padded with zero bits. -/
def pack : List ℕ → List ℕ
  | [] => []
  | a :: b :: c :: d :: rest => packByte [a, b, c, d] :: pack rest
  | row => [packByte row]

/-- The `k` codes of a byte, from the low bits up. -/
def codesOf : ℕ → ℕ → List ℕ
  | 0, _ => []
  | k + 1, b => b % 4 :: codesOf k (b / 4)

/-- A reader's view of a row of `n` codes: the codes of its bytes, cut at `n`. -/
def unpack (bytes : List ℕ) (n : ℕ) : List ℕ := (bytes.flatMap (codesOf 4)).take n

@[simp] theorem packByte_nil : packByte [] = 0 := rfl

@[simp] theorem packByte_cons (a : ℕ) (l : List ℕ) : packByte (a :: l) = a + 4 * packByte l :=
  rfl

theorem packByte_append_singleton (l : List ℕ) (x : ℕ) :
    packByte (l ++ [x]) = packByte l + x * 4 ^ l.length := by
  induction l with
  | nil => simp
  | cons a l ih => simp only [List.cons_append, packByte_cons, ih, List.length_cons, pow_succ]; ring

theorem packByte_lt {l : List ℕ} (h : ∀ x ∈ l, x < 4) : packByte l < 4 ^ l.length := by
  induction l with
  | nil => simp
  | cons a l ih =>
    obtain ⟨ha, hl⟩ := List.forall_mem_cons.mp h
    have := ih hl
    rw [packByte_cons, List.length_cons, pow_succ]
    generalize 4 ^ l.length = n at *
    omega

theorem codesOf_zero (k : ℕ) : codesOf k 0 = List.replicate k 0 := by
  induction k with
  | zero => rfl
  | succ k ih => simp [codesOf, ih, List.replicate_succ]

/-- The codes of a byte packed from at most `k` codes are those codes, then zeros. -/
theorem codesOf_packByte {l : List ℕ} {k : ℕ} (h : ∀ x ∈ l, x < 4) (hk : l.length ≤ k) :
    codesOf k (packByte l) = l ++ List.replicate (k - l.length) 0 := by
  induction l generalizing k with
  | nil => simp [codesOf_zero]
  | cons a l ih =>
    obtain ⟨ha, hl⟩ := List.forall_mem_cons.mp h
    cases k with
    | zero => simp at hk
    | succ k =>
      have h₁ : (a + 4 * packByte l) % 4 = a := by omega
      have h₂ : (a + 4 * packByte l) / 4 = packByte l := by omega
      simp [codesOf, h₁, h₂, ih hl (by simpa using hk)]

theorem pack_append {l m : List ℕ} (h : l.length % 4 = 0) : pack (l ++ m) = pack l ++ pack m := by
  induction l using pack.induct with
  | case1 => rfl
  | case2 a b c d rest ih =>
    simp only [List.cons_append]
    rw [pack, pack, ih (by simp only [List.length_cons] at h; omega), List.cons_append]
  | case3 row h₁ h₂ =>
    match row, h₁, h₂, h with
    | [], h₁, _, _ => exact (h₁ rfl).elim
    | [_], _, _, h | [_, _], _, _, h | [_, _, _], _, _, h => simp at h
    | _ :: _ :: _ :: _ :: _, _, h₂, _ => exact (h₂ _ _ _ _ _ rfl).elim

theorem pack_of_length {m : List ℕ} (h₀ : 0 < m.length) (h₁ : m.length ≤ 4) :
    pack m = [packByte m] := by
  match m, h₀, h₁ with
  | [_], _, _ | [_, _], _, _ | [_, _, _], _, _ | [_, _, _, _], _, _ => rfl

/-- The rows `pack` leaves to its last case hold one to three codes. -/
theorem length_short {row : List ℕ} (h₁ : row = [] → False)
    (h₂ : ∀ a b c d rest, row = a :: b :: c :: d :: rest → False) :
    0 < row.length ∧ row.length < 4 := by
  match row, h₁, h₂ with
  | [], h₁, _ => exact (h₁ rfl).elim
  | [_], _, _ | [_, _], _, _ | [_, _, _], _, _ => simp
  | _ :: _ :: _ :: _ :: _, _, h₂ => exact (h₂ _ _ _ _ _ rfl).elim

/-- `x << n * 2` puts `x` in the bit pair `n`. -/
theorem shiftLeft_mul_two (x n : ℕ) : x <<< (n * 2) = x * 4 ^ n := by
  rw [Nat.shiftLeft_eq, Nat.mul_comm n, Nat.pow_mul]

/-- **Packing reads back.** The bytes of a row of genotype codes, read back with the
row's length, give the row: missing markers (code `1`) and the zero padding included. -/
theorem unpack_pack {s : List ℕ} (h : ∀ x ∈ s, x < 4) : unpack (pack s) s.length = s := by
  induction s using pack.induct with
  | case1 => rfl
  | case2 a b c d rest ih =>
    have h4 : ∀ x ∈ [a, b, c, d], x < 4 := fun x hx => h x (List.mem_append_left rest hx)
    have hr : ∀ x ∈ rest, x < 4 := fun x hx => h x (by simp [hx])
    rw [pack, unpack, List.flatMap_cons, @codesOf_packByte _ 4 h4 (by simp)]
    simpa [unpack] using ih hr
  | case3 row h₁ h₂ =>
    obtain ⟨hpos, hlen⟩ := length_short h₁ h₂
    rw [pack_of_length hpos hlen.le, unpack, List.flatMap_singleton, codesOf_packByte h hlen.le,
      List.take_left]

/-- A row of `n` codes takes `⌈n / 4⌉` bytes. -/
theorem length_pack (s : List ℕ) : (pack s).length = (s.length + 3) / 4 := by
  induction s using pack.induct with
  | case1 => rfl
  | case2 a b c d rest ih =>
    rw [pack, List.length_cons, ih]
    simp only [List.length_cons]
    omega
  | case3 row h₁ h₂ =>
    obtain ⟨hpos, hlen⟩ := length_short h₁ h₂
    rw [pack_of_length hpos hlen.le, List.length_singleton]
    omega

/-- A reader's view of a BED file whose rows have the given numbers of codes: each row
from the next `⌈n / 4⌉` bytes. -/
def unpackRows : List ℕ → List ℕ → List (List ℕ)
  | _, [] => []
  | bytes, n :: ns => unpack (bytes.take ((n + 3) / 4)) n :: unpackRows (bytes.drop ((n + 3) / 4)) ns

/-- Packed rows, one after the other, read back row by row as the rows, whatever
follows them. -/
theorem unpackRows_pack (rs : List (List ℕ)) (h : ∀ s ∈ rs, ∀ x ∈ s, x < 4) (rest : List ℕ) :
    unpackRows ((rs.map pack).flatten ++ rest) (rs.map List.length) = rs := by
  induction rs with
  | nil => rfl
  | cons s rs ih =>
    simp only [List.map_cons, List.flatten_cons, List.append_assoc, unpackRows]
    rw [← length_pack, List.take_left, List.drop_left, unpack_pack (h s (List.mem_cons_self _ _)),
      ih fun s hs => h s (List.mem_cons_of_mem _ hs)]

/-- Adding the code `x` in the bit pair after `l`'s codes, within one byte, packs `l`
and `x`. -/
theorem packByte_push {l : List ℕ} {x : ℕ} (h : ∀ y ∈ l ++ [x], y < 4) (hl : l.length < 4) :
    (packByte l + (x <<< (l.length * 2))) % 256 = packByte (l ++ [x]) := by
  have hbyte : packByte (l ++ [x]) < 4 ^ 4 := lt_of_lt_of_le (packByte_lt h)
    (Nat.pow_le_pow_right (by norm_num) (by rw [List.length_append, List.length_singleton]; omega))
  rw [shiftLeft_mul_two, ← packByte_append_singleton]
  exact Nat.mod_eq_of_lt hbyte

/-! ## The packer simulates the rows -/

/-- The BED members of `p` against the closed rows and the open row: the file holds
`pre`, the packed closed rows and the full bytes of the open row; `bed_buf` holds the
rest of the open row and `bed_buf_state` counts it. -/
def BedInv (pre : List ℕ) (p : GenomicsDBPlinkProcessor) (closed : List (List ℕ)) (row : List ℕ) :
    Prop :=
  p.bedFile = pre ++ (closed.map pack).flatten ++ pack (row.take (row.length / 4 * 4)) ∧
    p.bedBufState = row.length % 4 ∧
    p.bedBuf = packByte (row.drop (row.length / 4 * 4)) ∧
    ∀ x ∈ row, x < 4

namespace BedInv

variable {pre : List ℕ} {p : GenomicsDBPlinkProcessor} {closed : List (List ℕ)} {row : List ℕ}

/-- `write_to_bed` keeps the invariant: the new code joins `bed_buf` in the bit pair
`bed_buf_state` counts, or completes the byte, which goes to the file. -/
theorem writeToBed (hI : BedInv pre p closed row) {x : ℕ} (hx : x < 4) :
    BedInv pre (p.writeToBed x) closed (row ++ [x]) := by
  obtain ⟨hf, hs, hb, hc⟩ := hI
  obtain ⟨pend, hpend⟩ : ∃ pend, pend = row.drop (row.length / 4 * 4) := ⟨_, rfl⟩
  have hrow : row.take (row.length / 4 * 4) ++ pend = row := by rw [hpend, List.take_append_drop]
  have hlen : pend.length = row.length % 4 := by rw [hpend, List.length_drop]; omega
  have hc' : ∀ y ∈ row ++ [x], y < 4 := List.forall_mem_append.mpr ⟨hc, by simpa using hx⟩
  have hpc : ∀ y ∈ pend ++ [x], y < 4 := List.forall_mem_append.mpr
    ⟨fun y hy => hc y (List.mem_of_mem_drop (hpend ▸ hy)), by simpa using hx⟩
  -- the new `bed_buf`, before a possible write-out, packs the pending codes and `x`
  have hbuf : (p.bedBuf + (x <<< (p.bedBufState * 2))) % 256 = packByte (pend ++ [x]) := by
    rw [hb, ← hpend, hs, ← hlen]
    exact packByte_push hpc (by omega)
  -- the new `bed_buf_state` counts the open row modulo `4`
  have hstate : (p.bedBufState + 1) % 4 = (row ++ [x]).length % 4 := by
    rw [hs, List.length_append, List.length_singleton, Nat.mod_add_mod]
  simp only [GenomicsDBPlinkProcessor.writeToBed, hbuf]
  split_ifs with hfull
  · -- the byte is full: it goes to the file, and no code of the open row is pending
    have hq : (row ++ [x]).length / 4 * 4 = (row ++ [x]).length :=
      Nat.div_mul_cancel (Nat.dvd_of_mod_eq_zero (hstate ▸ hfull))
    have hrx : row ++ [x] = row.take (row.length / 4 * 4) ++ (pend ++ [x]) := by
      rw [← List.append_assoc, hrow]
    refine ⟨?_, hstate, ?_, hc'⟩ <;> dsimp only
    · rw [hq, List.take_length, hrx, @pack_append (row.take _) (pend ++ [x]) (by rw [List.length_take]; omega),
        @pack_of_length (pend ++ [x]) (by simp) (by rw [List.length_append, List.length_singleton]; omega),
        hf, List.append_assoc]
    · rw [hq, List.drop_length, packByte_nil]
  · have hq : (row ++ [x]).length / 4 * 4 = row.length / 4 * 4 := by
      rw [List.length_append, List.length_singleton]; omega
    refine ⟨?_, hstate, ?_, hc'⟩ <;> dsimp only
    · rw [hq, List.take_append_of_le_length (by omega), hf]
    · rw [hq, List.drop_append_of_le_length (by omega), ← hpend]

/-- `flush_to_bed` keeps the invariant and closes the open row: a partly filled byte
goes to the file, an empty one does not. -/
theorem flushToBed (hI : BedInv pre p closed row) : BedInv pre p.flushToBed (closed ++ [row]) [] := by
  obtain ⟨hf, hs, hb, hc⟩ := hI
  obtain ⟨pend, hpend⟩ : ∃ pend, pend = row.drop (row.length / 4 * 4) := ⟨_, rfl⟩
  have hlen : pend.length = row.length % 4 := by rw [hpend, List.length_drop]; omega
  have hrow : pack row = pack (row.take (row.length / 4 * 4)) ++ pack pend := by
    rw [← @pack_append (row.take _) pend (by rw [List.length_take]; omega), hpend, List.take_append_drop]
  have hfile : pre ++ ((closed ++ [row]).map pack).flatten =
      p.bedFile ++ pack pend := by simp [hf, hrow]
  unfold GenomicsDBPlinkProcessor.flushToBed
  split_ifs with hne
  · -- a partly filled byte: it is the packed pending codes
    refine ⟨?_, rfl, rfl, by simp⟩
    rw [List.take_nil, pack, List.append_nil, hfile, @pack_of_length pend (by omega) (by omega),
      hb, ← hpend]
  · -- nothing pending: the file already ends with the packed row
    have hnil : pend = [] := List.eq_nil_of_length_eq_zero (by omega)
    refine ⟨?_, by rw [List.length_nil, Nat.zero_mod]; omega, by simp [hb, ← hpend, hnil], by simp⟩
    rw [List.take_nil, pack, List.append_nil, hfile, hnil, pack, List.append_nil]

/-- The constructor starts the invariant with the magic numbers and no rows. -/
theorem construct (p : GenomicsDBPlinkProcessor) (rowRanges colRanges : GenomicsdbRanges) :
    BedInv bedMagic (p.construct rowRanges colRanges) [] [] :=
  ⟨rfl, rfl, rfl, by simp⟩

/-- Each call keeps the invariant, against the rows advanced by the same call. -/
theorem apply (hI : BedInv pre p closed row) {op : BedOp} (hop : ∀ x, op = .writeToBed x → x < 4) :
    BedInv pre (op.apply p) (BedOp.rowStep (closed, row) op).1 (BedOp.rowStep (closed, row) op).2 := by
  cases op with
  | writeToBed x => exact hI.writeToBed (hop x rfl)
  | flushToBed => exact hI.flushToBed

/-- **The run lemma.** Every sequence of calls that writes genotype codes keeps the
invariant, against the rows of the sequence. -/
theorem run {ops : List BedOp} (hops : ∀ x, BedOp.writeToBed x ∈ ops → x < 4)
    (hI : BedInv pre p closed row) :
    BedInv pre (BedOp.run ops p) (ops.foldl BedOp.rowStep (closed, row)).1
      (ops.foldl BedOp.rowStep (closed, row)).2 := by
  induction ops generalizing p closed row with
  | nil => exact hI
  | cons op ops ih =>
    have hop : ∀ x, op = .writeToBed x → x < 4 := fun x h => hops x (h ▸ List.mem_cons_self _ _)
    exact ih (fun x hx => hops x (List.mem_cons_of_mem _ hx)) (hI.apply hop)

/-- `bed_buf` has no bit at or above `2 * bed_buf_state` set. -/
theorem bedBuf_lt (hI : BedInv pre p closed row) : p.bedBuf < 4 ^ p.bedBufState := by
  obtain ⟨-, hs, hb, hc⟩ := hI
  rw [hb, hs]
  have := @packByte_lt (row.drop (row.length / 4 * 4)) fun x hx => hc x (List.mem_of_mem_drop hx)
  rwa [List.length_drop, show row.length - row.length / 4 * 4 = row.length % 4 by omega] at this

end BedInv

/-- **The BED packer.** From the constructor's state, after any sequence of
`write_to_bed` calls with genotype codes and `flush_to_bed` calls, the bytes after the
magic numbers are the packed rows closed by a flush, then the full bytes of the open
row; `bed_buf_state` is the length of the open row modulo `4`, `bed_buf` packs its
codes not yet written and has no bit at or above `2 * bed_buf_state` set. A packed row
reads back as itself. -/
theorem bed_packer_rows (p : GenomicsDBPlinkProcessor) (rowRanges colRanges : GenomicsdbRanges)
    (ops : List BedOp) (hops : ∀ x, BedOp.writeToBed x ∈ ops → x < 4) :
    let q := BedOp.run ops (p.construct rowRanges colRanges)
    let closed := (BedOp.rows ops).1
    let row := (BedOp.rows ops).2
    q.bedFile = bedMagic ++ (closed.map pack).flatten ++ pack (row.take (row.length / 4 * 4)) ∧
      q.bedBufState = row.length % 4 ∧
      q.bedBuf = packByte (row.drop (row.length / 4 * 4)) ∧
      q.bedBuf < 4 ^ q.bedBufState ∧
      ∀ s : List ℕ, (∀ x ∈ s, x < 4) → unpack (pack s) s.length = s := by
  have hI := (BedInv.construct p rowRanges colRanges).run hops
  exact ⟨hI.1, hI.2.1, hI.2.2.1, hI.bedBuf_lt, fun _ => unpack_pack⟩

/-- Two rows of five samples: each row fills one byte (the first code in the low bits) and
starts a second that its flush writes out. -/
theorem bed_packer_rows_two_rows :
    (∀ x, BedOp.writeToBed x ∈ [BedOp.writeToBed 2, .writeToBed 0, .writeToBed 1, .writeToBed 3,
      .writeToBed 1, .flushToBed, .writeToBed 0, .writeToBed 2, .writeToBed 3, .writeToBed 3,
      .writeToBed 1, .flushToBed] → x < 4) ∧
      (BedOp.run [.writeToBed 2, .writeToBed 0, .writeToBed 1, .writeToBed 3, .writeToBed 1, .flushToBed,
          .writeToBed 0, .writeToBed 2, .writeToBed 3, .writeToBed 3, .writeToBed 1, .flushToBed]
        ((⟨0, .zstd 9, 0, 0, 0, 0, [], [], 0, 0, 0, []⟩ : GenomicsDBPlinkProcessor).construct
          [] [])).bedFile = bedMagic ++ [0xD2, 0x01, 0xF8, 0x01] := by
  have h : ∀ x, BedOp.writeToBed x ∈ [BedOp.writeToBed 2, .writeToBed 0, .writeToBed 1, .writeToBed 3,
      .writeToBed 1, .flushToBed, .writeToBed 0, .writeToBed 2, .writeToBed 3, .writeToBed 3,
      .writeToBed 1, .flushToBed] → x < 4 := by simp
  exact ⟨h, (bed_packer_rows _ [] [] _ h).1.trans (by decide)⟩

/-! ## Reading the file back -/

/-- Every code of the rows is a genotype code. -/
def CodesLt (r : List (List ℕ) × List ℕ) : Prop := ∀ s ∈ r.1 ++ [r.2], ∀ x ∈ s, x < 4

/-- A call keeps the rows' codes genotype codes. -/
theorem CodesLt.rowStep {r : List (List ℕ) × List ℕ} (h : CodesLt r) {op : BedOp}
    (hop : ∀ x, op = .writeToBed x → x < 4) : CodesLt (BedOp.rowStep r op) := by
  obtain ⟨closed, row⟩ := r
  intro s hs y hy
  cases op with
  | writeToBed x =>
    simp only [BedOp.rowStep, List.mem_append, List.mem_singleton] at hs
    rcases hs with hs | rfl
    · exact h s (List.mem_append_left _ hs) y hy
    · rcases List.mem_append.mp hy with hy | hy
      · exact h row (List.mem_append_right _ (List.mem_singleton_self _)) y hy
      · exact List.mem_singleton.mp hy ▸ hop x rfl
  | flushToBed =>
    simp only [BedOp.rowStep, List.mem_append, List.mem_singleton] at hs
    rcases hs with (hs | rfl) | rfl
    · exact h s (List.mem_append_left _ hs) y hy
    · exact h s (List.mem_append_right _ (List.mem_singleton_self _)) y hy
    · simp at hy

theorem CodesLt.run {ops : List BedOp} (hops : ∀ x, BedOp.writeToBed x ∈ ops → x < 4) :
    ∀ {r : List (List ℕ) × List ℕ}, CodesLt r → CodesLt (ops.foldl BedOp.rowStep r) := by
  induction ops with
  | nil => exact id
  | cons op ops ih =>
    intro r h
    exact ih (fun x hx => hops x (List.mem_cons_of_mem _ hx))
      (h.rowStep fun x hx => hops x (hx ▸ List.mem_cons_self _ _))

/-- A file that keeps the invariant after the magic numbers reads back, from the lengths
of its closed rows, as those rows. -/
theorem BedInv.file_rows {p : GenomicsDBPlinkProcessor} {closed : List (List ℕ)} {row : List ℕ}
    (hI : BedInv bedMagic p closed row) (hc : CodesLt (closed, row)) :
    p.bedFile.take 3 = bedMagic ∧ unpackRows (p.bedFile.drop 3) (closed.map List.length) = closed := by
  rw [hI.1, List.append_assoc]
  have hm : bedMagic.length = 3 := rfl
  refine ⟨List.take_left' hm, ?_⟩
  rw [List.drop_left' hm]
  exact unpackRows_pack _ (fun s hs => hc s (List.mem_append_left _ hs)) _

/-- **The file reads back.** From the constructor's state, after any sequence of calls
with genotype codes, the file starts with the magic numbers, and reading each row closed
by a flush from its `⌈n / 4⌉` bytes gives back the rows, in order. -/
theorem bed_file_rows (p : GenomicsDBPlinkProcessor) (rowRanges colRanges : GenomicsdbRanges)
    (ops : List BedOp) (hops : ∀ x, BedOp.writeToBed x ∈ ops → x < 4) :
    (BedOp.run ops (p.construct rowRanges colRanges)).bedFile.take 3 = bedMagic ∧
      unpackRows ((BedOp.run ops (p.construct rowRanges colRanges)).bedFile.drop 3)
        ((BedOp.rows ops).1.map List.length) = (BedOp.rows ops).1 :=
  ((BedInv.construct p rowRanges colRanges).run hops).file_rows (CodesLt.run hops (by simp [CodesLt]))

/-- Two rows, of two and of five samples. -/
theorem bed_file_rows_two_rows :
    let ops : List BedOp := [.writeToBed 3, .writeToBed 1, .flushToBed, .writeToBed 2, .writeToBed 0,
      .writeToBed 3, .writeToBed 3, .writeToBed 1, .flushToBed]
    let p : GenomicsDBPlinkProcessor := default
    (∀ x, BedOp.writeToBed x ∈ ops → x < 4) ∧
      (BedOp.run ops (p.construct [] [])).bedFile.take 3 = bedMagic ∧
        unpackRows ((BedOp.run ops (p.construct [] [])).bedFile.drop 3)
          ((BedOp.rows ops).1.map List.length) = (BedOp.rows ops).1 :=
  have h : ∀ x, BedOp.writeToBed x ∈ ([.writeToBed 3, .writeToBed 1, .flushToBed, .writeToBed 2,
      .writeToBed 0, .writeToBed 3, .writeToBed 3, .writeToBed 1, .flushToBed] : List BedOp) → x < 4 := by
    simp
  ⟨h, bed_file_rows _ [] [] _ h⟩

/-! ## Seeking to a row -/

/-- A reader that seeks to row `i` of a file whose rows all hold `n` codes, as PLINK's
readers do: the row's `⌈n / 4⌉` bytes start `3 + i * ⌈n / 4⌉` bytes in. -/
def readRowAt (file : List ℕ) (n i : ℕ) : List ℕ :=
  unpack ((file.drop (3 + i * ((n + 3) / 4))).take ((n + 3) / 4)) n

/-- Packed rows of `n` codes take `⌈n / 4⌉` bytes each, so the first `i` of them end
`i * ⌈n / 4⌉` bytes in. -/
theorem drop_flatten_pack {rs : List (List ℕ)} {n : ℕ} (hn : ∀ r ∈ rs, r.length = n) {i : ℕ}
    (hi : i ≤ rs.length) :
    ((rs.map pack).flatten).drop (i * ((n + 3) / 4)) = ((rs.drop i).map pack).flatten := by
  have hlen : (rs.map pack).map List.length = List.replicate rs.length ((n + 3) / 4) := by
    refine List.eq_replicate_iff.mpr ⟨by simp, ?_⟩
    simp only [List.map_map, List.mem_map, Function.comp_apply]
    rintro _ ⟨r, hr, rfl⟩
    rw [length_pack, hn r hr]
  have hsum : (((rs.map pack).map List.length).take i).sum = i * ((n + 3) / 4) := by
    rw [hlen, List.take_replicate, Nat.min_eq_left hi, List.sum_replicate, smul_eq_mul]
  rw [← hsum, List.drop_sum_flatten, List.map_drop]

/-- **Seeking to a row.** From the constructor's state, after any sequence of calls with
genotype codes in which every row closed by a flush holds `n` codes, reading row `i`
directly at its offset gives the row, as reading the file through does. -/
theorem bed_file_row_at (p : GenomicsDBPlinkProcessor) (rowRanges colRanges : GenomicsdbRanges)
    (ops : List BedOp) (hops : ∀ x, BedOp.writeToBed x ∈ ops → x < 4) (n : ℕ)
    (hn : ∀ r ∈ (BedOp.rows ops).1, r.length = n) (i : ℕ) (hi : i < (BedOp.rows ops).1.length) :
    readRowAt (BedOp.run ops (p.construct rowRanges colRanges)).bedFile n i =
      (BedOp.rows ops).1[i] := by
  have hf : (BedOp.run ops (p.construct rowRanges colRanges)).bedFile =
      bedMagic ++ ((BedOp.rows ops).1.map pack).flatten ++ _ :=
    ((BedInv.construct p rowRanges colRanges).run hops).1
  have hc : CodesLt (BedOp.rows ops) := CodesLt.run hops (by simp [CodesLt])
  have hr : (BedOp.rows ops).1[i] ∈ (BedOp.rows ops).1 := List.getElem_mem hi
  have hm : bedMagic.length = 3 := rfl
  -- after the magic numbers and `i` rows, the file goes on with the packed row `i`
  have hdrop : ∃ rest, (BedOp.run ops (p.construct rowRanges colRanges)).bedFile.drop
      (3 + i * ((n + 3) / 4)) = pack (BedOp.rows ops).1[i] ++ rest := by
    rw [hf, List.append_assoc, ← List.drop_drop, List.drop_left' hm, List.drop_append_eq_append_drop,
      drop_flatten_pack hn hi.le, List.drop_eq_getElem_cons hi, List.map_cons, List.flatten_cons,
      List.append_assoc]
    exact ⟨_, rfl⟩
  obtain ⟨rest, hrest⟩ := hdrop
  rw [readRowAt, hrest, List.take_left' (by rw [length_pack, hn _ hr]), ← hn _ hr]
  exact unpack_pack fun x hx => hc _ (List.mem_append_left _ hr) x hx

/-- Two rows of five samples; the second, read at its offset `3 + 2`. -/
theorem bed_file_row_at_second_row :
    let ops : List BedOp := [.writeToBed 3, .writeToBed 1, .writeToBed 2, .writeToBed 0, .writeToBed 3,
      .flushToBed, .writeToBed 1, .writeToBed 1, .writeToBed 2, .writeToBed 2, .writeToBed 0, .flushToBed]
    let p : GenomicsDBPlinkProcessor := default
    ((∀ x, BedOp.writeToBed x ∈ ops → x < 4) ∧ (∀ r ∈ (BedOp.rows ops).1, r.length = 5) ∧
      1 < (BedOp.rows ops).1.length) ∧
      readRowAt (BedOp.run ops (p.construct [] [])).bedFile 5 1 = [1, 1, 2, 2, 0] :=
  have h : ∀ x, BedOp.writeToBed x ∈ ([.writeToBed 3, .writeToBed 1, .writeToBed 2, .writeToBed 0,
      .writeToBed 3, .flushToBed, .writeToBed 1, .writeToBed 1, .writeToBed 2, .writeToBed 2, .writeToBed 0,
      .flushToBed] : List BedOp) → x < 4 := by
    simp
  ⟨⟨h, by decide, by decide⟩, bed_file_row_at _ [] [] _ h 5 (by decide) 1 (by decide)⟩

end GenomicsDB
