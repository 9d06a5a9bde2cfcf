import Disassembly.Run
import Disassembly.Proofs.Listing
import Disassembly.Proofs.Mnemonics
import Disassembly.Proofs.Tiling
import Disassembly.Proofs.JumpTable
import Disassembly.Proofs.Segments
import Disassembly.Proofs.Causality
import Disassembly.Proofs.Relocation
import Disassembly.Proofs.Splitting
import Disassembly.Proofs.Window
import Disassembly.Proofs.Lossless
import Disassembly.Proofs.Variants
import Disassembly.Proofs.Prefixes
import Disassembly.Proofs.JumpTargets
import Disassembly.Proofs.CaseJumps
import Disassembly.Proofs.Encoding
import Disassembly.Proofs.Labels
import Disassembly.Proofs.Groups
import Disassembly.Proofs.References
import Disassembly.Proofs.Rendering
import Disassembly.Proofs.OperandText
import Disassembly.Proofs.Outcomes
import Disassembly.Proofs.AddressText
import Disassembly.Proofs.Reads
import Disassembly.Proofs.CodeLengths
import Disassembly.Proofs.Sessions
import Disassembly.Proofs.Fields
