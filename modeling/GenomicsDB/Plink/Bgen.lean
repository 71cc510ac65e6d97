import GenomicsDB.Plink.Processor
import GenomicsDB.Plink.Enumerate

/-!
# BGEN genotype blocks

The processor builds the genotype probability block of each variant in `codec_buf`
and appends it to the `.bgen` file once every sample of the variant has been seen:

* `bgen_empty_cell` pushes a zero byte for each probability slot of a missing sample,
  walking the slots with the enumerator of the sample's phasing;
* `bgen_finish_gt` patches the minimum and maximum ploidy into the block, appends it,
  compressed or not, behind its size, and resets the block's state.

`GtBlock` is the layout-2 block as the BGEN format lays it out, with the minimum and
maximum ploidy at offsets `6` and `7` and the samples' ploidy bytes from offset `8`;
`GtBlock.read` reads a block back from its bytes (`GtBlock.read_bytes`).

Main results:

* `bgenEmptyCell_slots`: an empty cell appends one zero per slot of the format,
  `P * (K - 1)` phased and `C(P + K - 1, K - 1) - 1` unphased, unphased for `K ≥ 2`,
  as long as the enumerators' `int` counters do not overflow; at `K = 1` unphased it
  appends a byte where a sample has no slot (`bgenEmptyCell_one_allele`);
* `bgenFinishGt_frame`: the record appended is its 4-byte size followed by that many
  bytes, the uncompressed size first when compressed, and the block's state is reset;
* `bgenFinishGt_block`: the patch lands on offsets `7` and `8` of the block: the block
  written reads back with the minimum ploidy in the maximum's field, the maximum as the
  first sample's ploidy byte, and the minimum's field at its placeholder
  (`bgen_finish_gt_misplaced_patch` at one missing diploid sample);
* `BgenOp.run_records`: over any run of BGEN calls, `bgen_file` only grows, and what a
  run appends reads back, with the format's record reader `readGtRecords`, as the blocks
  its `bgen_finish_gt` calls finished, in order, compressed or not;
* `bgen_file_reads_back`: from the constructor's state, the whole `.bgen` file of a run
  reads back (`readBgenFile`) as the header the constructor wrote and, at the offset that
  header gives, the blocks the run finished.
-/

namespace GenomicsDB

/-! ## Empty cells -/

/-- `bgen_empty_cell(ploidy, alleles, phased)`: the callback `write_zero` pushes a `0`
onto `codec_buf` at each call of the enumerator, with `drop_last` at its default. -/
def GenomicsDBPlinkProcessor.bgenEmptyCell (p : GenomicsDBPlinkProcessor) (ploidy alleles : ℤ)
    (phased : Bool) : GenomicsDBPlinkProcessor :=
  let writeZero := fun (codecBuf : List ℕ) (_ : List ℤ × ℤ) => codecBuf ++ [0]
  let calls := if phased then bgenEnumeratePhased ploidy alleles else bgenEnumerateUnphased ploidy alleles
  { p with codecBuf := calls.foldl writeZero p.codecBuf }

/-- The number of probabilities a sample of ploidy `P` contributes to a layout-2 block
at a site with `K` alleles. -/
def bgenSlots (P K : ℕ) (phased : Bool) : ℕ :=
  if phased then P * (K - 1) else (P + K - 1).choose (K - 1) - 1

theorem foldl_push_zero (calls : List (List ℤ × ℤ)) (buf : List ℕ) :
    calls.foldl (fun b _ => b ++ [0]) buf = buf ++ List.replicate calls.length 0 := by
  induction calls generalizing buf with
  | nil => simp
  | cons c calls ih => simp [ih, List.replicate_succ]

/-- An empty cell pushes one zero per call of its enumerator, and changes nothing else. -/
theorem bgenEmptyCell_eq (p : GenomicsDBPlinkProcessor) (ploidy alleles : ℤ) (phased : Bool) :
    p.bgenEmptyCell ploidy alleles phased =
      { p with codecBuf := p.codecBuf ++ List.replicate (if phased then bgenEnumeratePhased ploidy alleles
          else bgenEnumerateUnphased ploidy alleles).length 0 } := by
  simp only [GenomicsDBPlinkProcessor.bgenEmptyCell, foldl_push_zero]

/-- **Empty cells fill their slots.** A missing sample of ploidy `P` at a site with
`K` alleles appends exactly its `bgenSlots P K phased` zeros to the block, phased for
any `K`, unphased for `K ≥ 2`, so the samples after it keep their place. The `int`
counters of the enumerators stay in range: `P < 2 ^ 31 - 1` for the unphased loops, and
phased at most `2 ^ 31` slots for `++ind`. -/
theorem bgenEmptyCell_slots (p : GenomicsDBPlinkProcessor) (P K : ℕ) (phased : Bool)
    (hK : phased = true ∨ 2 ≤ K) (_hP : P < 2 ^ 31 - 1) (_hind : phased = true → P * (K - 1) ≤ 2 ^ 31) :
    p.bgenEmptyCell P K phased =
      { p with codecBuf := p.codecBuf ++ List.replicate (bgenSlots P K phased) 0 } := by
  rw [bgenEmptyCell_eq]
  cases phased with
  | true => simp [bgenSlots, length_bgenEnumeratePhased]
  | false => simp [bgenSlots, length_bgenEnumerateUnphased P K true (by simpa using hK)]

theorem bgenEmptyCell_slots_diploid_triallelic :
    ((false = true ∨ 2 ≤ 3) ∧ 2 < 2 ^ 31 - 1 ∧ (false = true → 2 * (3 - 1) ≤ 2 ^ 31)) ∧
      (default : GenomicsDBPlinkProcessor).bgenEmptyCell 2 3 false =
        { (default : GenomicsDBPlinkProcessor) with
          codecBuf := (default : GenomicsDBPlinkProcessor).codecBuf ++
            List.replicate (bgenSlots 2 3 false) 0 } :=
  ⟨⟨by decide, by decide, by decide⟩, bgenEmptyCell_slots _ 2 3 false (by decide) (by decide) (by decide)⟩

/-- **A monoallelic site gets a byte too many.** Unphased, at `K = 1`, where a sample
has no slot, an empty cell still pushes a zero: the enumerator hands over `(P)`. -/
theorem bgenEmptyCell_one_allele (p : GenomicsDBPlinkProcessor) (P : ℕ) :
    (p.bgenEmptyCell P 1 false).codecBuf = p.codecBuf ++ [0] ∧ bgenSlots P 1 false = 0 := by
  simp [bgenEmptyCell_eq, bgenEnumerateUnphased_one, bgenSlots]

/-! ## The genotype block -/

/-- A layout-2 genotype probability block, before compression, as the BGEN format lays
it out: the number of samples `N` in 4 bytes, the number of alleles in 2, the minimum
and maximum ploidy, one ploidy byte per sample (top bit for missing), the phased flag,
the bit depth and the probabilities. -/
structure GtBlock where
  alleles : ℕ
  minPloidy : ℕ
  maxPloidy : ℕ
  /-- the ploidy/missing byte of each sample; `N` is their number -/
  ploidy : List ℕ
  phased : ℕ
  bitDepth : ℕ
  payload : List ℕ
  deriving DecidableEq, Repr

/-- The bytes of a block. -/
def GtBlock.bytes (b : GtBlock) : List ℕ :=
  bytesLE 4 b.ploidy.length ++ bytesLE 2 b.alleles ++ [b.minPloidy, b.maxPloidy] ++ b.ploidy ++
    [b.phased, b.bitDepth] ++ b.payload

/-- Bytes `7` and `8` of a block with a sample are its maximum ploidy and the first
sample's ploidy byte. -/
theorem GtBlock.set_bytes_seven_eight (b : GtBlock) (hs : b.ploidy ≠ []) (lo hi : ℕ) :
    (b.bytes.set 7 lo).set 8 hi = { b with maxPloidy := lo, ploidy := hi :: b.ploidy.tail }.bytes := by
  obtain ⟨s, rest, h⟩ := List.exists_cons_of_ne_nil hs
  simp [GtBlock.bytes, h, bytesLE]

/-- A reader of a block, as the format is read: `N` from the first 4 bytes, the number
of alleles from the next 2, then the fields in order, the probabilities last. -/
def GtBlock.read (bs : List ℕ) : Option GtBlock :=
  match bs.drop 6 with
  | minPloidy :: maxPloidy :: rest =>
    let n := ofBytesLE (bs.take 4)
    match rest.drop n with
    | phased :: bitDepth :: payload =>
      some ⟨ofBytesLE ((bs.drop 4).take 2), minPloidy, maxPloidy, rest.take n, phased, bitDepth, payload⟩
    | _ => none
  | _ => none

/-- **Blocks read back.** A block of fewer than `2 ^ 32` samples and `2 ^ 16` alleles
is read back from its bytes. -/
theorem GtBlock.read_bytes (b : GtBlock) (hn : b.ploidy.length < 2 ^ 32) (hk : b.alleles < 2 ^ 16) :
    GtBlock.read b.bytes = some b := by
  have h₆ : b.bytes.drop 6 =
      b.minPloidy :: b.maxPloidy :: (b.ploidy ++ b.phased :: b.bitDepth :: b.payload) := by
    simp [GtBlock.bytes, bytesLE]
  have h₄ : b.bytes.take 4 = bytesLE 4 b.ploidy.length := by simp [GtBlock.bytes, bytesLE]
  have h₂ : (b.bytes.drop 4).take 2 = bytesLE 2 b.alleles := by simp [GtBlock.bytes, bytesLE]
  rw [GtBlock.read, h₆]
  simp only [h₄, h₂, ofBytesLE_bytesLE_four hn, ofBytesLE_bytesLE_of_lt (show b.alleles < 256 ^ 2 from hk),
    List.drop_left, List.take_left]

/-! ## Finishing a block -/

/-- The first lines of `bgen_finish_gt`: `codec_buf[7] = min_ploidy`, then
`codec_buf[8] = max_ploidy`. (`List.set` leaves a shorter buffer as it is, where the
source's `operator[]` is undefined; a block is longer.) -/
def GenomicsDBPlinkProcessor.patchedBuf (p : GenomicsDBPlinkProcessor) : List ℕ :=
  (p.codecBuf.set 7 p.minPloidy).set 8 p.maxPloidy

/-- What `bgen_finish_gt` writes to the `.bgen` file: with `compression` set, the
compressed size plus `4`, the uncompressed size and the compressed bytes; without, the
size and the bytes. `compress` is `TileDBUtils::compress` with the processor's codec;
each size is written as its 4 low bytes. -/
def GenomicsDBPlinkProcessor.gtRecord (compress : Codec → List ℕ → List ℕ)
    (p : GenomicsDBPlinkProcessor) : List ℕ :=
  let codecBuf := p.patchedBuf
  let uncompressedSize := codecBuf.length
  if p.compression ≠ 0 then
    let data := compress p.codec codecBuf
    let totalSize := data.length + 4
    bytesLE 4 totalSize ++ bytesLE 4 uncompressedSize ++ data
  else bytesLE 4 uncompressedSize ++ codecBuf

/-- `bgen_finish_gt()`: append the record, clear `codec_buf` and `bgen_gt_size`, and
reset the ploidy bounds to `64` and `-1`. -/
def GenomicsDBPlinkProcessor.bgenFinishGt (compress : Codec → List ℕ → List ℕ)
    (p : GenomicsDBPlinkProcessor) : GenomicsDBPlinkProcessor :=
  { p with
    bgenFile := p.bgenFile ++ p.gtRecord compress
    codecBuf := []
    bgenGtSize := 0
    minPloidy := 64
    maxPloidy := charByte (-1) }

/-- **The record is framed by its size.** The record `bgen_finish_gt` appends starts
with 4 bytes that, read back, count the bytes after them; compressed, the next 4 count
the bytes of the block. The block's state is reset, and nothing else changes. -/
theorem bgenFinishGt_frame (compress : Codec → List ℕ → List ℕ) (p : GenomicsDBPlinkProcessor)
    (hbuf : p.codecBuf.length < 2 ^ 32)
    (hdata : p.compression ≠ 0 → (compress p.codec p.patchedBuf).length + 4 < 2 ^ 32) :
    ∃ record, p.bgenFinishGt compress =
        { p with
          bgenFile := p.bgenFile ++ record
          codecBuf := []
          bgenGtSize := 0
          minPloidy := 64
          maxPloidy := 255 } ∧
      ofBytesLE (record.take 4) = (record.drop 4).length ∧
      (p.compression ≠ 0 → ofBytesLE ((record.drop 4).take 4) = p.codecBuf.length) := by
  have hlen : p.patchedBuf.length = p.codecBuf.length := by simp [GenomicsDBPlinkProcessor.patchedBuf]
  refine ⟨p.gtRecord compress, rfl, ?_, fun hc => ?_⟩
  · by_cases hc : p.compression = 0
    · simp [GenomicsDBPlinkProcessor.gtRecord, hc, hlen, ofBytesLE_bytesLE_four hbuf]
    · have h := ofBytesLE_bytesLE_four (hdata hc)
      simp [GenomicsDBPlinkProcessor.gtRecord, hc]
      rwa [Nat.add_comm 4]
  · simp [GenomicsDBPlinkProcessor.gtRecord, hc, hlen, ofBytesLE_bytesLE_four hbuf]

/-- One missing diploid sample at a biallelic site, its two slots filled, compressed by a
codec that stores the block as it is: the record is `C = 21`, `D = 13` and the 13 bytes. -/
theorem bgenFinishGt_frame_compressed :
    let p : GenomicsDBPlinkProcessor := { (default : GenomicsDBPlinkProcessor) with
      compression := 1
      codecBuf := GtBlock.bytes ⟨2, 0, 0, [0x82], 0, 8, [0, 0]⟩
      minPloidy := 2
      maxPloidy := 2 }
    let compress : Codec → List ℕ → List ℕ := fun _ bs => bs
    (p.codecBuf.length < 2 ^ 32 ∧
      (p.compression ≠ 0 → (compress p.codec p.patchedBuf).length + 4 < 2 ^ 32)) ∧
      ∃ record, p.bgenFinishGt compress =
          { p with
            bgenFile := p.bgenFile ++ record
            codecBuf := []
            bgenGtSize := 0
            minPloidy := 64
            maxPloidy := 255 } ∧
        ofBytesLE (record.take 4) = (record.drop 4).length ∧
        (p.compression ≠ 0 → ofBytesLE ((record.drop 4).take 4) = p.codecBuf.length) :=
  ⟨⟨by decide, by decide⟩, bgenFinishGt_frame _ _ (by decide) (by decide)⟩

/-- **Where the patch lands.** For a block of at least one sample, the block
`bgen_finish_gt` writes (before compression, when compressed) reads back with the
minimum ploidy in the maximum's field and the maximum as the first sample's ploidy byte,
while the minimum's field keeps whatever the block held. -/
theorem bgenFinishGt_block (compress : Codec → List ℕ → List ℕ) (p : GenomicsDBPlinkProcessor)
    (b : GtBlock) (hb : p.codecBuf = b.bytes) (hs : b.ploidy ≠ []) (hn : b.ploidy.length < 2 ^ 32)
    (hk : b.alleles < 2 ^ 16) :
    let written : GtBlock := { b with maxPloidy := p.minPloidy, ploidy := p.maxPloidy :: b.ploidy.tail }
    ∃ record, (p.bgenFinishGt compress).bgenFile = p.bgenFile ++ record ∧
      (p.compression = 0 → record.drop 4 = written.bytes) ∧
      (p.compression ≠ 0 → record.drop 8 = compress p.codec written.bytes) ∧
      GtBlock.read written.bytes = some written := by
  intro written
  have hp : p.patchedBuf = written.bytes := by
    rw [GenomicsDBPlinkProcessor.patchedBuf, hb, GtBlock.set_bytes_seven_eight b hs]
  have hlen : written.ploidy.length = b.ploidy.length := by
    obtain ⟨s, rest, h⟩ := List.exists_cons_of_ne_nil hs
    simp [written, h]
  refine ⟨p.gtRecord compress, rfl, fun hc => ?_, fun hc => ?_,
    GtBlock.read_bytes written (hlen ▸ hn) hk⟩
  · simp [GenomicsDBPlinkProcessor.gtRecord, hc, hp]
  · rw [GenomicsDBPlinkProcessor.gtRecord, if_pos hc, hp, List.drop_left' (by simp)]

/-- One missing diploid sample at a biallelic site, with its two empty slots. -/
theorem bgenFinishGt_block_missing_diploid :
    let b : GtBlock := ⟨2, 0, 0, [0x82], 0, 8, [0, 0]⟩
    let p : GenomicsDBPlinkProcessor := { (default : GenomicsDBPlinkProcessor) with
      codecBuf := b.bytes
      minPloidy := 2
      maxPloidy := 2 }
    let compress : Codec → List ℕ → List ℕ := fun _ bs => bs
    let written : GtBlock := { b with maxPloidy := p.minPloidy, ploidy := p.maxPloidy :: b.ploidy.tail }
    (p.codecBuf = b.bytes ∧ b.ploidy ≠ [] ∧ b.ploidy.length < 2 ^ 32 ∧ b.alleles < 2 ^ 16) ∧
      ∃ record, (p.bgenFinishGt compress).bgenFile = p.bgenFile ++ record ∧
        (p.compression = 0 → record.drop 4 = written.bytes) ∧
        (p.compression ≠ 0 → record.drop 8 = compress p.codec written.bytes) ∧
        GtBlock.read written.bytes = some written :=
  ⟨⟨rfl, by decide, by decide, by decide⟩, bgenFinishGt_block _ _ _ rfl (by decide) (by decide) (by decide)⟩

/-- At the block of one missing diploid sample at a biallelic site, with both ploidy
bounds at `2`, uncompressed: the record carries `0` at offset `6` and `2` over the
sample's ploidy byte `0x82`. -/
theorem bgen_finish_gt_misplaced_patch (compress : Codec → List ℕ → List ℕ)
    (p : GenomicsDBPlinkProcessor) :
    let q := { p with
      compression := 0
      codecBuf := [1, 0, 0, 0, 2, 0, 0, 0, 0x82, 0, 8, 0, 0]
      minPloidy := 2
      maxPloidy := 2 }
    (q.bgenFinishGt compress).bgenFile = p.bgenFile ++ [13, 0, 0, 0] ++ [1, 0, 0, 0, 2, 0, 0, 2, 2, 0, 8, 0, 0] := by
  simp [GenomicsDBPlinkProcessor.bgenFinishGt, GenomicsDBPlinkProcessor.gtRecord,
    GenomicsDBPlinkProcessor.patchedBuf, bytesLE]

/-! ## Runs of BGEN calls -/

section Runs

-- `TileDBUtils::compress` with the processor's codec
variable (compress : Codec → List ℕ → List ℕ)

/-- The calls the processor makes on its BGEN packer. -/
inductive BgenOp where
  | bgenEmptyCell (ploidy alleles : ℤ) (phased : Bool)
  | bgenFinishGt
  deriving DecidableEq, Repr

/-- One BGEN call on the processor. -/
def BgenOp.apply (p : GenomicsDBPlinkProcessor) : BgenOp → GenomicsDBPlinkProcessor
  | bgenEmptyCell ploidy alleles phased => p.bgenEmptyCell ploidy alleles phased
  | bgenFinishGt => p.bgenFinishGt compress

/-- A sequence of BGEN calls, in order. -/
def BgenOp.run (ops : List BgenOp) (p : GenomicsDBPlinkProcessor) : GenomicsDBPlinkProcessor :=
  ops.foldl (BgenOp.apply compress) p

/-- The blocks a run finishes, in order, each as `bgen_finish_gt` patches it. -/
def BgenOp.finished : List BgenOp → GenomicsDBPlinkProcessor → List (List ℕ)
  | [], _ => []
  | .bgenFinishGt :: gs, p => p.patchedBuf :: BgenOp.finished gs (p.bgenFinishGt compress)
  | g :: gs, p => BgenOp.finished gs (g.apply compress p)

/-- What a record stores: the block, compressed when `compression` is set. -/
def GenomicsDBPlinkProcessor.stored (p : GenomicsDBPlinkProcessor) (b : List ℕ) : List ℕ :=
  if p.compression ≠ 0 then compress p.codec b else b

end Runs

/-- A reader of `k` genotype records as `bgen_finish_gt` frames them, giving each record's
uncompressed size `D` and its stored bytes: uncompressed, the 4-byte `D` and `D` bytes;
compressed, the 4-byte size `C` of what follows, the 4-byte `D` and `C - 4` bytes. -/
def readGtRecords (compressed : Bool) : ℕ → List ℕ → List (ℕ × List ℕ)
  | 0, _ => []
  | k + 1, bs =>
    let size := ofBytesLE (bs.take 4)
    let rest := bs.drop 4
    (if compressed then (ofBytesLE (rest.take 4), (rest.drop 4).take (size - 4))
      else (size, rest.take size)) :: readGtRecords compressed k (rest.drop size)

section Runs

variable (compress : Codec → List ℕ → List ℕ)

/-- The record `bgen_finish_gt` writes for a block `b`: with `compression` set, the size
of what follows, the uncompressed size and the compressed bytes; without, the size and
the bytes. -/
def GenomicsDBPlinkProcessor.frame (p : GenomicsDBPlinkProcessor) (b : List ℕ) : List ℕ :=
  if p.compression ≠ 0 then
    bytesLE 4 ((compress p.codec b).length + 4) ++ bytesLE 4 b.length ++ compress p.codec b
  else bytesLE 4 b.length ++ b

/-- The record of one block reads back as the block's size and stored bytes, and the
reader goes on right after it. -/
theorem readGtRecords_frame (p : GenomicsDBPlinkProcessor) {b : List ℕ} (hb : b.length < 2 ^ 32)
    (hdata : p.compression ≠ 0 → (compress p.codec b).length + 4 < 2 ^ 32) (k : ℕ) (rest : List ℕ) :
    readGtRecords (decide (p.compression ≠ 0)) (k + 1) (p.frame compress b ++ rest) =
      (b.length, p.stored compress b) :: readGtRecords (decide (p.compression ≠ 0)) k rest := by
  by_cases hc : p.compression = 0
  · simp [readGtRecords, GenomicsDBPlinkProcessor.frame, GenomicsDBPlinkProcessor.stored, hc,
      ofBytesLE_bytesLE_four hb]
  · have h := ofBytesLE_bytesLE_four (hdata hc)
    -- the total size counts the uncompressed size's 4 bytes and the data
    have hd : (bytesLE 4 b.length ++ (compress p.codec b ++ rest)).drop ((compress p.codec b).length + 4) =
        rest := by
      rw [Nat.add_comm, ← List.drop_drop, List.drop_left' (length_bytesLE _ _), List.drop_left]
    simp [readGtRecords, GenomicsDBPlinkProcessor.frame, GenomicsDBPlinkProcessor.stored, hc,
      ofBytesLE_bytesLE_four hb, h, hd]

/-- Records written one after the other read back one after the other. -/
theorem readGtRecords_frames (p : GenomicsDBPlinkProcessor) (bs : List (List ℕ))
    (hsize : ∀ b ∈ bs, b.length < 2 ^ 32 ∧ (p.compression ≠ 0 → (compress p.codec b).length + 4 < 2 ^ 32)) :
    readGtRecords (decide (p.compression ≠ 0)) bs.length (bs.map (p.frame compress)).flatten =
      bs.map fun b => (b.length, p.stored compress b) := by
  induction bs with
  | nil => rfl
  | cons b bs ih =>
    obtain ⟨hb, hdata⟩ := hsize b (List.mem_cons_self _ _)
    rw [List.map_cons, List.flatten_cons, List.length_cons, readGtRecords_frame compress p hb hdata,
      ih fun c hc => hsize c (List.mem_cons_of_mem _ hc), List.map_cons]

/-- **What a run writes.** A run of BGEN calls appends to `bgen_file` the record of each
block it finishes, in order, and nothing else. -/
theorem BgenOp.run_bgenFile (gs : List BgenOp) (p : GenomicsDBPlinkProcessor) :
    (BgenOp.run compress gs p).bgenFile =
      p.bgenFile ++ ((BgenOp.finished compress gs p).map (p.frame compress)).flatten := by
  induction gs generalizing p with
  | nil => exact (List.append_nil _).symm
  | cons g gs ih =>
    cases g with
    | bgenEmptyCell ploidy alleles phased => exact ih (p.bgenEmptyCell ploidy alleles phased)
    | bgenFinishGt => exact (ih (p.bgenFinishGt compress)).trans (List.append_assoc _ _ _)

/-- **The records read back.** A run of BGEN calls only appends to `bgen_file`, and what it
appends reads back, record by record, as the blocks its `bgen_finish_gt` calls finished, in
order, each with its uncompressed size and its stored bytes, as long as each block and each
compressed block fits its 4-byte size. -/
theorem BgenOp.run_records (gs : List BgenOp) (p : GenomicsDBPlinkProcessor)
    (hsize : ∀ b ∈ BgenOp.finished compress gs p,
      b.length < 2 ^ 32 ∧ (p.compression ≠ 0 → (compress p.codec b).length + 4 < 2 ^ 32)) :
    ∃ appended, (BgenOp.run compress gs p).bgenFile = p.bgenFile ++ appended ∧
      readGtRecords (decide (p.compression ≠ 0)) (BgenOp.finished compress gs p).length appended =
        (BgenOp.finished compress gs p).map fun b => (b.length, p.stored compress b) :=
  ⟨_, BgenOp.run_bgenFile compress gs p, readGtRecords_frames compress p _ hsize⟩

end Runs

/-- A block of one missing diploid sample at a biallelic site, its two slots filled by
an empty cell, compressed by a codec that stores the block as it is. -/
theorem run_records_missing_diploid :
    let gs : List BgenOp := [.bgenEmptyCell 2 2 false, .bgenFinishGt]
    let p : GenomicsDBPlinkProcessor := { (default : GenomicsDBPlinkProcessor) with
      compression := 1
      codecBuf := GtBlock.bytes ⟨2, 0, 0, [0x82], 0, 8, []⟩
      minPloidy := 2
      maxPloidy := 2 }
    let compress : Codec → List ℕ → List ℕ := fun _ bs => bs
    (∀ b ∈ BgenOp.finished compress gs p,
      b.length < 2 ^ 32 ∧ (p.compression ≠ 0 → (compress p.codec b).length + 4 < 2 ^ 32)) ∧
      ∃ appended, (BgenOp.run compress gs p).bgenFile = p.bgenFile ++ appended ∧
        readGtRecords (decide (p.compression ≠ 0)) (BgenOp.finished compress gs p).length appended =
          (BgenOp.finished compress gs p).map fun b => (b.length, p.stored compress b) :=
  have h : ∀ b ∈ BgenOp.finished (fun _ bs => bs) [.bgenEmptyCell 2 2 false, .bgenFinishGt]
      { (default : GenomicsDBPlinkProcessor) with
        compression := 1
        codecBuf := GtBlock.bytes ⟨2, 0, 0, [0x82], 0, 8, []⟩
        minPloidy := 2
        maxPloidy := 2 },
      b.length < 2 ^ 32 ∧ ((1 : ℤ) ≠ 0 → b.length + 4 < 2 ^ 32) := by
    decide
  ⟨h, BgenOp.run_records _ _ _ h⟩

/-! ## The `.bgen` file -/

/-- A reader of the `.bgen` file: the header's fields, then `k` genotype records from where
the header's offset puts the first variant block, `4 + offset` bytes in, framed as the
header's compression flags say. -/
def readBgenFile (bs : List ℕ) (k : ℕ) : BgenHeaderFields × List (ℕ × List ℕ) :=
  let header := readBgenHeader bs
  (header, readGtRecords (decide (header.compression ≠ 0)) k (bs.drop (4 + header.offset)))

/-- **The `.bgen` file reads back through its header.** After the constructor and any run
of BGEN calls, the header reads back as offset `20`, header length `20`, no variants and no
samples yet, the magic `bgen`, no compression, layout `2` and sample identifiers; and the
records read where its offset points, uncompressed as its flags say, are the blocks the run
finished, in order, as long as each fits its 4-byte size. -/
theorem bgen_file_reads_back (compress : Codec → List ℕ → List ℕ) (p : GenomicsDBPlinkProcessor)
    (rowRanges colRanges : GenomicsdbRanges) (gs : List BgenOp)
    (hsize : ∀ b ∈ BgenOp.finished compress gs (p.construct rowRanges colRanges), b.length < 2 ^ 32) :
    readBgenFile (BgenOp.run compress gs (p.construct rowRanges colRanges)).bgenFile
        (BgenOp.finished compress gs (p.construct rowRanges colRanges)).length =
      (⟨20, 20, 0, 0, ['b', 'g', 'e', 'n'].map Char.toNat, 0, 2, true⟩,
        (BgenOp.finished compress gs (p.construct rowRanges colRanges)).map fun b => (b.length, b)) := by
  have hfile : (p.construct rowRanges colRanges).bgenFile = bgenHeader 0 := rfl
  rw [readBgenFile, BgenOp.run_bgenFile, hfile, readBgenHeader_construct]
  -- the first variant block starts right after the 24 bytes of the header
  have hm : (bgenHeader 0).length = 4 + 20 := rfl
  rw [List.drop_left' hm]
  exact congrArg _ (readGtRecords_frames compress (p.construct rowRanges colRanges) _
    fun b hb => ⟨hsize b hb, fun h => absurd rfl h⟩)

/-- Ten zero slots, from two missing diploid samples at a triallelic site, then the block
finished. -/
theorem bgen_file_reads_back_two_cells :
    let p : GenomicsDBPlinkProcessor := default
    let compress : Codec → List ℕ → List ℕ := fun _ bs => bs
    let gs : List BgenOp := [.bgenEmptyCell 2 3 false, .bgenEmptyCell 2 3 false, .bgenFinishGt]
    (∀ b ∈ BgenOp.finished compress gs (p.construct [] []), b.length < 2 ^ 32) ∧
      readBgenFile (BgenOp.run compress gs (p.construct [] [])).bgenFile
          (BgenOp.finished compress gs (p.construct [] [])).length =
        (⟨20, 20, 0, 0, ['b', 'g', 'e', 'n'].map Char.toNat, 0, 2, true⟩,
          (BgenOp.finished compress gs (p.construct [] [])).map fun b => (b.length, b)) :=
  have h : ∀ b ∈ BgenOp.finished (fun _ bs => bs)
      [.bgenEmptyCell 2 3 false, .bgenEmptyCell 2 3 false, .bgenFinishGt]
      ((default : GenomicsDBPlinkProcessor).construct [] []), b.length < 2 ^ 32 := by
    decide
  ⟨h, bgen_file_reads_back _ _ [] [] _ h⟩

end GenomicsDB
