import Assembler.Folder
import Assembler.Main
import Assembler.Session
import Assembler.Proofs.Allocation
import Assembler.Proofs.Decoding
import Assembler.Proofs.Listing
import Assembler.Proofs.Reader
import Assembler.Proofs.Source
import Assembler.Proofs.Declaration
import Assembler.Proofs.Folder
import Assembler.Proofs.Token
import Assembler.Proofs.Command
import Assembler.Proofs.Fault
import Assembler.Proofs.Refusal
import Assembler.Proofs.PrintedTable
import Assembler.Proofs.Overrun
import Assembler.Proofs.Malformed
import Assembler.Proofs.Stages
import Assembler.Proofs.PrintedLine
import Assembler.Proofs.LetterCase
import Assembler.Proofs.Relayout
import Assembler.Proofs.Record
import Assembler.Proofs.Relisting
import Assembler.Proofs.Resolution
import Assembler.Proofs.Override
import Assembler.Proofs.Opcodes
import Assembler.Proofs.Limits
import Assembler.Proofs.Spelling
import Assembler.Proofs.Session
