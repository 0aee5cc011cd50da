import Chip8.Main
import Chip8.Proofs.Encoding.Words
import Chip8.Proofs.Notation.Statement
import Chip8.Proofs.Listing.Coverage
import Chip8.Proofs.Listing.Restamp
import Chip8.Proofs.Listing.RoundTrip
import Chip8.Proofs.Machine.Control
import Chip8.Proofs.Machine.Coverage
import Chip8.Proofs.Machine.Written
import Chip8.Proofs.Machine.Refusal
import Chip8.Proofs.Session.Stall
import Chip8.Proofs.Source.Lines
import Chip8.Proofs.Listing.Annotation
import Chip8.Proofs.Source.Sheltered
import Chip8.Proofs.Listing.Edit
import Chip8.Proofs.Machine.CallStack
import Chip8.Proofs.Session.Run
import Chip8.Proofs.Session.Subroutine
import Chip8.Proofs.Session.Failure
import Chip8.Proofs.Machine.Restart
import Chip8.Proofs.Session.Picture
import Chip8.Proofs.Listing.Acceptance
import Chip8.Proofs.Listing.FixedPoint
import Chip8.Proofs.Machine.Footprint
import Chip8.Proofs.Machine.Access
import Chip8.Proofs.Machine.Ticking
import Chip8.Proofs.Machine.Draws
import Chip8.Proofs.Source.Append
import Chip8.Proofs.Notation.Grammar
import Chip8.Proofs.Listing.Reach
import Chip8.Proofs.Listing.Tiling
import Chip8.Proofs.Source.Plain
import Chip8.Proofs.Listing.Block
import Chip8.Proofs.Machine.Fault
import Chip8.Proofs.Machine.Sprites
import Chip8.Proofs.Machine.Arithmetic
import Chip8.Proofs.Machine.Addresses
import Chip8.Proofs.Machine.Tones
import Chip8.Proofs.Source.FirstFault
import Chip8.Proofs.Source.SourceMap
import Chip8.Proofs.Source.Pairing
import Chip8.Proofs.Machine.Transfer
import Chip8.Proofs.Notation.RegisterName
import Chip8.Proofs.Notation.Overflow
