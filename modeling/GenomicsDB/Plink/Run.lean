import GenomicsDB.Plink.Bed
import GenomicsDB.Plink.Bgen

/-!
# Runs of the processor

One processor writes the BED file and the BGEN file of a query together: for each
cell it hands a genotype code to `write_to_bed` and the cell's probabilities (or
`bgen_empty_cell`'s zeros) to the BGEN block, and at the end of a variant it calls
`flush_to_bed` and `bgen_finish_gt`. `PlinkOp` is one such call, a `BedOp` or a
`BgenOp`, and `PlinkOp.run` a sequence of them in whatever order the query visits the
cells.

The two packers share the processor but no member: the BED calls read and write only
`bed_file`, `bed_buf` and `bed_buf_state` (`bedPart`), the BGEN calls only `bgen_file`,
`codec_buf`, the ploidy bounds and `bgen_gt_size`, and the configuration they read
(`compression`, `codec`) none of them writes. So every BGEN call commutes with every BED
call (`BgenOp.apply_comm_bed`), any interleaving ends in the state that the BED calls
alone, followed by the BGEN calls alone, end in (`PlinkOp.run_eq_separate`), and

* `PlinkOp.run_bed_file_rows`: the BED file of any interleaved run reads back as the rows
  its BED calls closed.
-/

namespace GenomicsDB

open GenomicsDBPlinkProcessor

section

-- `TileDBUtils::compress` with the processor's codec
variable (compress : Codec → List ℕ → List ℕ)

/-- A call on the processor's output files. -/
inductive PlinkOp where
  | bed (op : BedOp)
  | bgen (op : BgenOp)
  deriving DecidableEq, Repr

namespace PlinkOp

/-- One call on the processor. -/
def apply (p : GenomicsDBPlinkProcessor) : PlinkOp → GenomicsDBPlinkProcessor
  | bed op => op.apply p
  | bgen op => op.apply compress p

/-- A sequence of calls, in order. -/
def run (ops : List PlinkOp) (p : GenomicsDBPlinkProcessor) : GenomicsDBPlinkProcessor :=
  ops.foldl (apply compress) p

/-- The BED calls of a sequence, in order. -/
def bedOps : List PlinkOp → List BedOp
  | [] => []
  | bed op :: ops => op :: bedOps ops
  | bgen _ :: ops => bedOps ops

/-- The BGEN calls of a sequence, in order. -/
def bgenOps : List PlinkOp → List BgenOp
  | [] => []
  | bed _ :: ops => bgenOps ops
  | bgen op :: ops => op :: bgenOps ops

end PlinkOp

/-- The BED members: `bed_file`, `bed_buf`, `bed_buf_state`. -/
def GenomicsDBPlinkProcessor.bedPart (p : GenomicsDBPlinkProcessor) : List ℕ × ℕ × ℕ :=
  (p.bedFile, p.bedBuf, p.bedBufState)

/-! ## Step lemmas -/

/-- **A BGEN call commutes with a BED call.** Neither reads what the other writes. -/
theorem BgenOp.apply_comm_bed (p : GenomicsDBPlinkProcessor) (g : BgenOp) (b : BedOp) :
    g.apply compress (b.apply p) = b.apply (g.apply compress p) := by
  cases g <;> cases b <;>
    simp only [BgenOp.apply, BedOp.apply, writeToBed, flushToBed,
      GenomicsDBPlinkProcessor.bgenEmptyCell, GenomicsDBPlinkProcessor.bgenFinishGt] <;>
    split_ifs <;> rfl

/-- A BGEN call leaves the BED members as they were. -/
theorem BgenOp.apply_bedPart (p : GenomicsDBPlinkProcessor) (g : BgenOp) :
    (g.apply compress p).bedPart = p.bedPart := by
  cases g <;> rfl

/-! ## Run lemmas -/

/-- A BGEN call commutes with a run of BED calls. -/
theorem BgenOp.apply_comm_bedRun (g : BgenOp) (ops : List BedOp) (p : GenomicsDBPlinkProcessor) :
    g.apply compress (BedOp.run ops p) = BedOp.run ops (g.apply compress p) := by
  induction ops generalizing p with
  | nil => rfl
  | cons b ops ih => exact (ih (b.apply p)).trans (congrArg _ (g.apply_comm_bed compress p b))

/-- A run of BGEN calls leaves the BED members as they were. -/
theorem BgenOp.run_bedPart (gs : List BgenOp) (p : GenomicsDBPlinkProcessor) :
    (BgenOp.run compress gs p).bedPart = p.bedPart := by
  induction gs generalizing p with
  | nil => rfl
  | cons g gs ih => exact (ih _).trans (g.apply_bedPart compress p)

/-- **Any interleaving is the BED calls, then the BGEN calls.** -/
theorem PlinkOp.run_eq_separate (ops : List PlinkOp) (p : GenomicsDBPlinkProcessor) :
    PlinkOp.run compress ops p =
      BgenOp.run compress (PlinkOp.bgenOps ops) (BedOp.run (PlinkOp.bedOps ops) p) := by
  induction ops generalizing p with
  | nil => rfl
  | cons o ops ih =>
    cases o with
    | bed b => exact ih (b.apply p)
    | bgen g => exact (ih _).trans (congrArg _ (g.apply_comm_bedRun compress _ p).symm)

/-! ## The BED file of an interleaved run -/

/-- **The BED file of an interleaved run.** From the constructor's state, whatever BGEN calls
stand between them, BED calls with genotype codes leave a file that starts with the magic
numbers and reads back, row by row, as the rows their flushes closed. -/
theorem PlinkOp.run_bed_file_rows (p : GenomicsDBPlinkProcessor) (rowRanges colRanges : GenomicsdbRanges)
    (ops : List PlinkOp) (hops : ∀ x, BedOp.writeToBed x ∈ PlinkOp.bedOps ops → x < 4) :
    (PlinkOp.run compress ops (p.construct rowRanges colRanges)).bedFile.take 3 = bedMagic ∧
      unpackRows ((PlinkOp.run compress ops (p.construct rowRanges colRanges)).bedFile.drop 3)
        ((BedOp.rows (PlinkOp.bedOps ops)).1.map List.length) = (BedOp.rows (PlinkOp.bedOps ops)).1 := by
  -- the BGEN calls leave the file the BED calls write
  have hf : (PlinkOp.run compress ops (p.construct rowRanges colRanges)).bedFile =
      (BedOp.run (PlinkOp.bedOps ops) (p.construct rowRanges colRanges)).bedFile := by
    rw [PlinkOp.run_eq_separate]
    exact congrArg Prod.fst (BgenOp.run_bedPart compress _ _)
  rw [hf]
  exact ((BedInv.construct p rowRanges colRanges).run hops).file_rows (CodesLt.run hops (by simp [CodesLt]))

end

/-- A row of two samples, code `3` then the missing code `1`, with ten empty BGEN slots of
two diploid triallelic samples written between the calls and the block finished. -/
theorem run_bed_file_rows_interleaved :
    let ops : List PlinkOp := [.bed (.writeToBed 3), .bgen (.bgenEmptyCell 2 3 false),
      .bed (.writeToBed 1), .bgen (.bgenEmptyCell 2 3 false), .bed .flushToBed, .bgen .bgenFinishGt]
    let p : GenomicsDBPlinkProcessor := default
    (∀ x, BedOp.writeToBed x ∈ PlinkOp.bedOps ops → x < 4) ∧
      (PlinkOp.run (fun _ bs => bs) ops (p.construct [] [])).bedFile.take 3 = bedMagic ∧
        unpackRows ((PlinkOp.run (fun _ bs => bs) ops (p.construct [] [])).bedFile.drop 3)
          ((BedOp.rows (PlinkOp.bedOps ops)).1.map List.length) = (BedOp.rows (PlinkOp.bedOps ops)).1 :=
  have h : ∀ x, BedOp.writeToBed x ∈ PlinkOp.bedOps [.bed (.writeToBed 3), .bgen (.bgenEmptyCell 2 3 false),
      .bed (.writeToBed 1), .bgen (.bgenEmptyCell 2 3 false), .bed .flushToBed, .bgen .bgenFinishGt] → x < 4 := by
    simp [PlinkOp.bedOps]
  ⟨h, PlinkOp.run_bed_file_rows _ _ [] [] _ h⟩

end GenomicsDB
