import GenomicsDB.Machine
import GenomicsDB.Field
import GenomicsDB.Plink.Processor
import GenomicsDB.Plink.Bed
import GenomicsDB.Plink.Enumerate
import GenomicsDB.Plink.Bgen
import GenomicsDB.Plink.Run
