import Mathlib.Tactic.IntervalCases
import GenomicsDB.Machine

/-!
# The PLINK/BGEN processor and its constructor

`GenomicsDBPlinkProcessor` is a call processor: the query engine feeds it cells, and
its member functions append bytes to the `.bed` and `.bgen` files it owns. The model
keeps the members that the modelled member functions read or write, as a flat record,
and every member function becomes a function from record to record.

The constructor

* picks the BGEN codec from `compression` (zstd, since `compression` starts at `0`);
* opens the files, writes the BED magic numbers and the 24 bytes of the BGEN header,
  whose variant and sample counts are left at `0`, to be filled in later;
* sums the widths `hi - lo + 1` of the rank's row ranges and column ranges into the
  `int` members `total_rows` and `total_cols`, which the progress report divides by.

`readBgenHeader_construct` reads the header the constructor writes back field by
field (`readBgenHeader`): the offsets, the magic, and the flags with no compression,
layout `2` and the sample-identifier bit.

The sums are where the constructor computes: each width is an `int64_t`, and the
running total is an `int`. `progressTotal_eq` says what the total is for any list of
ranges: the true sum, wrapped into `int`, and the exact sum while it fits
(`construct_totals_eq_sum`). So the default column range `SCAN_FULL`
alone, of width `INT64_MAX`, leaves `total_cols` at `-1`
(`construct_scanFull_totalCols`).
-/

namespace GenomicsDB

/-- `genomicsdb_ranges_t`: row or column ranges, as `(lo, hi)` pairs of `int64_t`. -/
abbrev GenomicsdbRanges : Type := List (ℤ × ℤ)

/-- `SCAN_FULL`, the default column range `{{0, INT64_MAX-1}}`. -/
def scanFull : GenomicsdbRanges := [(0, 2 ^ 63 - 2)]

/-- The codecs `TileDBUtils::create_codec` is asked for, with their levels. -/
inductive Codec where
  /-- `TILEDB_GZIP` -/
  | gzip (level : ℤ)
  /-- `TILEDB_ZSTD` -/
  | zstd (level : ℤ)
  deriving DecidableEq, Repr, Inhabited

/-- The members of `GenomicsDBPlinkProcessor` that the modelled member functions use;
files are the bytes written to them so far. -/
structure GenomicsDBPlinkProcessor where
  /-- `0` for none, `1` for zlib, `2` for zstd -/
  compression : ℤ
  /-- the codec created for BGEN genotype blocks -/
  codec : Codec
  /-- sum of the widths of the rank's row ranges, for the progress report -/
  totalRows : ℤ
  /-- sum of the widths of the rank's column ranges, for the progress report -/
  totalCols : ℤ
  /-- the BED byte being filled, two bits per sample -/
  bedBuf : ℕ
  /-- how many samples `bedBuf` holds -/
  bedBufState : ℕ
  bedFile : List ℕ
  bgenFile : List ℕ
  minPloidy : ℕ
  maxPloidy : ℕ
  bgenGtSize : ℤ
  /-- the genotype block of the current variant, before compression -/
  codecBuf : List ℕ
  deriving DecidableEq, Repr, Inhabited

/-- The BED magic numbers `0x6c 0x1b 0x01` (variant-major). -/
def bedMagic : List ℕ := [0x6c, 0x1b, 0x01]

/-- The BGEN flags `0b1000...1000 | compression`: layout 2, sample identifiers present,
the compression in the low bits. -/
def bgenFlags (compression : ℤ) : ℕ :=
  0b10000000000000000000000000001000 ||| (compression % 2 ^ 32).toNat

/-- The BGEN header the constructor writes: the offset `20` of the first variant block,
the header length `20`, `0` for the number of variants and of samples, the magic
`bgen`, and the flags. -/
def bgenHeader (compression : ℤ) : List ℕ :=
  bytesLE 4 20 ++ bytesLE 4 20 ++ bytesLE 4 0 ++ bytesLE 4 0 ++
    ['b', 'g', 'e', 'n'].map Char.toNat ++ bytesLE 4 (bgenFlags compression)

/-- One turn of the progress loop, `total += a.second - a.first + 1`: the width is an
`int64_t`, the sum is taken in `int64_t` and stored back into the `int` total. -/
def addWidth (total : ℤ) (a : ℤ × ℤ) : ℤ :=
  toInt32 (toInt64 (total + toInt64 (toInt64 (a.2 - a.1) + 1)))

/-- The progress loop over a list of ranges, from `0`; `total_rows` and `total_cols`
are this loop over the rank's row ranges and column ranges. -/
def progressTotal (ranges : GenomicsdbRanges) : ℤ := ranges.foldl addWidth 0

/-- The constructor, run on a freshly allocated object `p`. `rowRanges` and `colRanges`
are what `query_config` returns for the processor's rank. `min_ploidy`, `max_ploidy`
and `bgen_gt_size` have no initializer, so they keep whatever `p` holds. -/
def GenomicsDBPlinkProcessor.construct (p : GenomicsDBPlinkProcessor)
    (rowRanges colRanges : GenomicsdbRanges) : GenomicsDBPlinkProcessor :=
  let compression : ℤ := 0
  { p with
    compression
    codec := if compression = 1 then .gzip (-1) else .zstd 9
    bedBuf := 0
    bedBufState := 0
    bedFile := bedMagic
    bgenFile := bgenHeader compression
    codecBuf := []
    totalRows := progressTotal rowRanges
    totalCols := progressTotal colRanges }

/-! ## The BGEN header -/

/-- The fields of a BGEN header as the format lays them out: five 4-byte words, the
magic, and the flags word, whose bits 0–1 are the compression, bits 2–5 the layout and
bit 31 the presence of sample identifiers. -/
structure BgenHeaderFields where
  offset : ℕ
  headerLength : ℕ
  variants : ℕ
  samples : ℕ
  magic : List ℕ
  compression : ℕ
  layout : ℕ
  sampleIdentifiers : Bool
  deriving DecidableEq, Repr

/-- A reader of the header's fields. -/
def readBgenHeader (bs : List ℕ) : BgenHeaderFields :=
  let word (i : ℕ) := ofBytesLE ((bs.drop (4 * i)).take 4)
  { offset := word 0
    headerLength := word 1
    variants := word 2
    samples := word 3
    magic := (bs.drop 16).take 4
    compression := word 5 % 4
    layout := word 5 / 4 % 16
    sampleIdentifiers := word 5 / 2 ^ 31 % 2 == 1 }

/-- The header the constructor writes reads back, whatever follows it, as the offset `20`
of the first variant block, the header length `20`, no variants and no samples yet, the
magic `bgen`, no compression, layout `2` and sample identifiers present. -/
theorem readBgenHeader_construct (rest : List ℕ) :
    readBgenHeader (bgenHeader 0 ++ rest) =
      ⟨20, 20, 0, 0, ['b', 'g', 'e', 'n'].map Char.toNat, 0, 2, true⟩ := by
  have h : bgenHeader 0 =
      [20, 0, 0, 0, 20, 0, 0, 0, 0, 0, 0, 0, 0, 0, 0, 0, 98, 103, 101, 110, 8, 0, 0, 128] := by
    decide
  rw [h]
  simp [readBgenHeader, ofBytesLE]

/-! ## The progress totals -/

/-- The width `hi - lo + 1` of a range, as an exact integer. -/
def width (a : ℤ × ℤ) : ℤ := a.2 - a.1 + 1

/-- One turn of the loop adds the exact width, up to the wrap-around into `int`. -/
theorem addWidth_eq (total : ℤ) (a : ℤ × ℤ) : addWidth total a = toInt32 (total + width a) := by
  obtain ⟨k₁, h₁⟩ := toInt64_eq_add (a.2 - a.1)
  obtain ⟨k₂, h₂⟩ := toInt64_eq_add (toInt64 (a.2 - a.1) + 1)
  obtain ⟨k₃, h₃⟩ := toInt64_eq_add (total + toInt64 (toInt64 (a.2 - a.1) + 1))
  have h : total + toInt64 (toInt64 (a.2 - a.1) + 1) + 2 ^ 64 * k₃ =
      total + width a + 2 ^ 64 * (k₁ + k₂ + k₃) := by
    rw [h₂, h₁, width]; ring
  rw [addWidth, h₃, h, toInt32_add_pow64]

/-- **The progress total** of any list of ranges is the exact sum of their widths,
wrapped into `int`. -/
theorem progressTotal_eq (ranges : GenomicsdbRanges) :
    progressTotal ranges = toInt32 (ranges.map width).sum := by
  suffices ∀ t, ranges.foldl addWidth (toInt32 t) = toInt32 (t + (ranges.map width).sum) by
    simpa using this 0
  induction ranges with
  | nil => simp
  | cons a rest ih =>
    intro t
    rw [List.foldl_cons, addWidth_eq, toInt32_toInt32_add, ih]
    simp [add_assoc]

/-- The progress total is exact as long as the sum of the widths fits in an `int`. -/
theorem progressTotal_eq_sum {ranges : GenomicsdbRanges} (h₀ : 0 ≤ (ranges.map width).sum)
    (h₁ : (ranges.map width).sum < 2 ^ 31) : progressTotal ranges = (ranges.map width).sum := by
  rw [progressTotal_eq, toInt32_of_lt (by omega) h₁]

/-- **The progress totals are exact** as long as the sums of the widths fit in an `int`:
the constructor's `total_rows` and `total_cols` are then the numbers of rows and of columns
of the rank's ranges. -/
theorem construct_totals_eq_sum (p : GenomicsDBPlinkProcessor) (rowRanges colRanges : GenomicsdbRanges)
    (hr₀ : 0 ≤ (rowRanges.map width).sum) (hr₁ : (rowRanges.map width).sum < 2 ^ 31)
    (hc₀ : 0 ≤ (colRanges.map width).sum) (hc₁ : (colRanges.map width).sum < 2 ^ 31) :
    (p.construct rowRanges colRanges).totalRows = (rowRanges.map width).sum ∧
      (p.construct rowRanges colRanges).totalCols = (colRanges.map width).sum :=
  ⟨progressTotal_eq_sum hr₀ hr₁, progressTotal_eq_sum hc₀ hc₁⟩

/-- Ten rows, and two ranges of ten columns. -/
theorem construct_totals_eq_sum_two_ranges :
    (0 ≤ ([(0, 9)].map width).sum ∧ ([(0, 9)].map width).sum < 2 ^ 31 ∧
      0 ≤ ([(0, 9), (20, 29)].map width).sum ∧ ([(0, 9), (20, 29)].map width).sum < 2 ^ 31) ∧
      ((default : GenomicsDBPlinkProcessor).construct [(0, 9)] [(0, 9), (20, 29)]).totalRows =
          ([(0, 9)].map width).sum ∧
        ((default : GenomicsDBPlinkProcessor).construct [(0, 9)] [(0, 9), (20, 29)]).totalCols =
          ([(0, 9), (20, 29)].map width).sum :=
  ⟨⟨by decide, by decide, by decide, by decide⟩,
    construct_totals_eq_sum _ _ _ (by decide) (by decide) (by decide) (by decide)⟩

/-- **`SCAN_FULL` wraps `total_cols`.** With the default column range, whatever the row
ranges, the constructor leaves `total_cols` at `-1`, not at the width `2 ^ 63 - 1`. -/
theorem construct_scanFull_totalCols (p : GenomicsDBPlinkProcessor) (rowRanges : GenomicsdbRanges) :
    (p.construct rowRanges scanFull).totalCols = -1 ∧ (scanFull.map width).sum = 2 ^ 63 - 1 := by
  refine ⟨?_, by decide⟩
  show progressTotal scanFull = -1
  decide

end GenomicsDB
