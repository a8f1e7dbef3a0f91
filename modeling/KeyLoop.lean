/-
# KeyLoop — key words of a decryption loop, from the loop's own code

The library reads the code of a decrypter, locates in it the update of the
running sum, runs the update abstractly to get the key words, and decrypts
with them.
-/
import KeyLoop.Assembly.Call
import KeyLoop.Decrypter
import KeyLoop.Instruction.Listing
import KeyLoop.Machine.SparseSlots
import KeyLoop.Method.Lookup
import KeyLoop.Proofs.Bytes.Tail
import KeyLoop.Proofs.Machine.Frame
import KeyLoop.Proofs.Decrypter.Decrypt
import KeyLoop.Proofs.PartialWord.Bits
import KeyLoop.Proofs.PartialWord.Refinement
import KeyLoop.Proofs.Value.Covers
import KeyLoop.Proofs.Machine.Simulation
import KeyLoop.Proofs.Value.Words
import KeyLoop.Proofs.Machine.PartialKnowledge
import KeyLoop.Proofs.Window.UnknownLocals
import KeyLoop.Proofs.Instruction.Encoding
import KeyLoop.Proofs.Assembly.Requests
import KeyLoop.Proofs.Assembly.Forms
import KeyLoop.Proofs.Assembly.RoundTrip
import KeyLoop.Proofs.Instruction.Decoding
import KeyLoop.Proofs.Assembly.Reassembly
import KeyLoop.Proofs.Method.Lookup
import KeyLoop.Proofs.Method.Decoded
import KeyLoop.Proofs.Window.TwoPhase
import KeyLoop.Proofs.Window.SinglePhase
import KeyLoop.Proofs.Machine.Shadow
import KeyLoop.Proofs.Window.Repetition
import KeyLoop.Proofs.Decrypter.Schedule
import KeyLoop.Proofs.Window.Guard
import KeyLoop.Proofs.Window.GuardedDecrement
import KeyLoop.Proofs.Assembly.Depth
import KeyLoop.Proofs.Machine.Meaning
import KeyLoop.Proofs.Assembly.Listing
import KeyLoop.Proofs.Assembly.StraightLine
import KeyLoop.Proofs.Method.Declarations
import KeyLoop.Proofs.Decrypter.IncrementLoop
import KeyLoop.Proofs.Instruction.Shape
import KeyLoop.Proofs.Machine.Renaming
import KeyLoop.Proofs.Method.Shape
import KeyLoop.Proofs.Window.Shape
import KeyLoop.Proofs.Window.Renaming
import KeyLoop.Proofs.Instruction.Relocation
import KeyLoop.Proofs.Window.Relocation
import KeyLoop.Proofs.PartialWord.Exactness
import KeyLoop.Proofs.PartialWord.Laws
import KeyLoop.Proofs.Value.Truncation
import KeyLoop.Proofs.Machine.TableEffect
import KeyLoop.Proofs.Value.CheckedConversion
import KeyLoop.Proofs.Value.Comparison
import KeyLoop.Proofs.Machine.Queries
import KeyLoop.Proofs.Value.Narrowing
import KeyLoop.Proofs.Machine.StoredSlots
import KeyLoop.Proofs.Machine.Thresholds
import KeyLoop.Proofs.Window.Limits
import KeyLoop.Proofs.Assembly.Failures
import KeyLoop.Proofs.Instruction.Boundaries
import KeyLoop.Proofs.Method.Body
import KeyLoop.Proofs.Method.BranchTargets
import KeyLoop.Proofs.Method.SortedDeclarations
import KeyLoop.Proofs.Machine.SlotCalls
import KeyLoop.Window.Access
import KeyLoop.Proofs.Window.Search
import KeyLoop.Proofs.Window.Touched
import KeyLoop.Proofs.Window.Access
import KeyLoop.Proofs.Bytes.Lens
import KeyLoop.Proofs.Machine.Bounds
