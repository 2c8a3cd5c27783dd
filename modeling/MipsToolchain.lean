import MipsToolchain.Batch
import MipsToolchain.CommandLine.Directory
import MipsToolchain.Main
import MipsToolchain.Proofs.Encoding.Success
import MipsToolchain.Proofs.Expr.Parsing
import MipsToolchain.Proofs.Link.Deferral
import MipsToolchain.Proofs.Link.Transfers
import MipsToolchain.Proofs.ObjectFile.Addresses
import MipsToolchain.Settings.Writer
import MipsToolchain.Proofs.Link.Contents
import MipsToolchain.Proofs.Link.Uninitialised
import MipsToolchain.Proofs.Assembly.Symbols
import MipsToolchain.Proofs.Link.Relinking
import MipsToolchain.Proofs.Link.Tidy
import MipsToolchain.Proofs.Link.Equivalence
import MipsToolchain.Proofs.Link.Splits
import MipsToolchain.Proofs.ObjectFile.Linking
import MipsToolchain.Proofs.Link.ReadBack
import MipsToolchain.Proofs.Link.SharedNames
import MipsToolchain.Proofs.Link.Produced
import MipsToolchain.Proofs.Link.Orders
import MipsToolchain.Proofs.Assembly.Disassembly
import MipsToolchain.Proofs.Assembly.Completion
import MipsToolchain.Proofs.Isa.RoundTrip
import MipsToolchain.Proofs.Object.History
import MipsToolchain.Proofs.Assembly.Accounting
import MipsToolchain.Proofs.Object.Finality
import MipsToolchain.Proofs.ObjectFile.Canonical
import MipsToolchain.Proofs.ObjectFile.Programs
import MipsToolchain.Proofs.Object.Access
import MipsToolchain.Proofs.Encoding.Constants
import MipsToolchain.Proofs.ObjectFile.AddressSpace
import MipsToolchain.Proofs.Assembly.Operands
import MipsToolchain.Proofs.Token.Coverage
import MipsToolchain.Proofs.Token.Integers
import MipsToolchain.Proofs.Assembly.SizeLimit
import MipsToolchain.Proofs.Scanner.Language
import MipsToolchain.Proofs.Expr.Printing
import MipsToolchain.Proofs.Expr.WellFormed
