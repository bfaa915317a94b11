import Wordcode.Main
import Wordcode.Proofs.Instruction.Repairs
import Wordcode.Proofs.Listing.LineReader
import Wordcode.Proofs.Listing.Messages
import Wordcode.Proofs.Listing.Relayout
import Wordcode.Proofs.Listing.Reported
import Wordcode.Proofs.Report.Alignment
import Wordcode.Proofs.Report.WordColumn
import Wordcode.Proofs.Word.Tiling
import Wordcode.Proofs.Word.Value
