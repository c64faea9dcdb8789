import Xiangqi.Main
import Xiangqi.Policy
import Xiangqi.Position.Consistency
import Xiangqi.Proofs.Distinct
import Xiangqi.Proofs.Edits
import Xiangqi.Proofs.Fen.Turned
import Xiangqi.Proofs.Stations
import Xiangqi.Proofs.Totals
import Xiangqi.Proofs.Layout
import Xiangqi.Proofs.Paths
import Xiangqi.Proofs.Untrusted
import Xiangqi.Proofs.Planes
import Xiangqi.Proofs.Setup
import Xiangqi.Proofs.Drawing
import Xiangqi.Proofs.Words
import Xiangqi.Proofs.Registers
import Xiangqi.Proofs.Keys
import Xiangqi.Proofs.Numbering
import Xiangqi.Proofs.MoveWords
import Xiangqi.Proofs.OutputSlots
