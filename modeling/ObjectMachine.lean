import ObjectMachine.Assembler
import ObjectMachine.Builtin
import ObjectMachine.CodeUnit
import ObjectMachine.Config
import ObjectMachine.Decimal.Notation
import ObjectMachine.Decimal.Read
import ObjectMachine.Decimal.Shortest
import ObjectMachine.Dispatch
import ObjectMachine.Failure
import ObjectMachine.Heap
import ObjectMachine.Heap.Chain
import ObjectMachine.Heap.Collect
import ObjectMachine.Heap.Compare
import ObjectMachine.Heap.Display
import ObjectMachine.Heap.Marks
import ObjectMachine.Instr
import ObjectMachine.Machine
import ObjectMachine.Machine.Instruction
import ObjectMachine.Mailbox
import ObjectMachine.Misuse
import ObjectMachine.NameMap
import ObjectMachine.Object
import ObjectMachine.Op
import ObjectMachine.Packed
import ObjectMachine.Proofs.Assembler.Effects
import ObjectMachine.Proofs.Assembler.Labels
import ObjectMachine.Proofs.Assembler.Listings
import ObjectMachine.Proofs.Assembler.Locals
import ObjectMachine.Proofs.Assembler.Pools
import ObjectMachine.Proofs.Classes.Actions
import ObjectMachine.Proofs.Classes.Attributes
import ObjectMachine.Proofs.Classes.Crashes
import ObjectMachine.Proofs.Classes.Endings
import ObjectMachine.Proofs.Classes.Families
import ObjectMachine.Proofs.Classes.Instances
import ObjectMachine.Proofs.Classes.Sessions
import ObjectMachine.Proofs.Classes.Values
import ObjectMachine.Proofs.Comparing.Association
import ObjectMachine.Proofs.Comparing.Containers
import ObjectMachine.Proofs.Comparing.Filling
import ObjectMachine.Proofs.Comparing.Keeping
import ObjectMachine.Proofs.Comparing.Mappings
import ObjectMachine.Proofs.Comparing.Operators
import ObjectMachine.Proofs.Comparing.Parts
import ObjectMachine.Proofs.Comparing.Tables
import ObjectMachine.Proofs.Comparing.UniqueKeys
import ObjectMachine.Proofs.Comparing.Values
import ObjectMachine.Proofs.Copying.Classes
import ObjectMachine.Proofs.Copying.Orders
import ObjectMachine.Proofs.Copying.Rebuilding
import ObjectMachine.Proofs.Copying.Regular
import ObjectMachine.Proofs.Copying.Reordering
import ObjectMachine.Proofs.Copying.RoundTrip
import ObjectMachine.Proofs.Copying.Sendable
import ObjectMachine.Proofs.Copying.TreeOrder
import ObjectMachine.Proofs.Copying.Trees
import ObjectMachine.Proofs.Copying.Wiring
import ObjectMachine.Proofs.Decimal.Integers
import ObjectMachine.Proofs.Display.Levels
import ObjectMachine.Proofs.Display.Pieces
import ObjectMachine.Proofs.Heap.Accounts
import ObjectMachine.Proofs.Heap.Cells
import ObjectMachine.Proofs.Heap.Exact
import ObjectMachine.Proofs.Heap.Histories
import ObjectMachine.Proofs.Heap.Lifetimes
import ObjectMachine.Proofs.Heap.Lineage
import ObjectMachine.Proofs.Heap.Marking
import ObjectMachine.Proofs.Heap.Plain
import ObjectMachine.Proofs.Heap.Sound
import ObjectMachine.Proofs.Heap.Sweeping
import ObjectMachine.Proofs.Host.Ancestry
import ObjectMachine.Proofs.Host.Liveness
import ObjectMachine.Proofs.Host.Operations
import ObjectMachine.Proofs.Host.Panics
import ObjectMachine.Proofs.Host.Unobservable
import ObjectMachine.Proofs.Machine.Balance
import ObjectMachine.Proofs.Machine.BoundCalls
import ObjectMachine.Proofs.Machine.CallEnds
import ObjectMachine.Proofs.Machine.CallSites
import ObjectMachine.Proofs.Machine.CallSteps
import ObjectMachine.Proofs.Machine.Crediting
import ObjectMachine.Proofs.Machine.Depth
import ObjectMachine.Proofs.Machine.Footing
import ObjectMachine.Proofs.Machine.InlineCalls
import ObjectMachine.Proofs.Machine.Isolation
import ObjectMachine.Proofs.Machine.Loops
import ObjectMachine.Proofs.Machine.Sites
import ObjectMachine.Proofs.Machine.Unwinding
import ObjectMachine.Proofs.Renaming.Actions
import ObjectMachine.Proofs.Renaming.Boot
import ObjectMachine.Proofs.Renaming.Calls
import ObjectMachine.Proofs.Renaming.Collections
import ObjectMachine.Proofs.Renaming.Copies
import ObjectMachine.Proofs.Renaming.Frames
import ObjectMachine.Proofs.Renaming.Heaps
import ObjectMachine.Proofs.Renaming.Instructions
import ObjectMachine.Proofs.Renaming.Machines
import ObjectMachine.Proofs.Renaming.Making
import ObjectMachine.Proofs.Renaming.Operators
import ObjectMachine.Proofs.Renaming.Payloads
import ObjectMachine.Proofs.Renaming.Questions
import ObjectMachine.Proofs.Scopes.Actions
import ObjectMachine.Proofs.Scopes.Activations
import ObjectMachine.Proofs.Scopes.Acts
import ObjectMachine.Proofs.Scopes.Bodies
import ObjectMachine.Proofs.Scopes.Capture
import ObjectMachine.Proofs.Scopes.Catalogue
import ObjectMachine.Proofs.Scopes.Constants
import ObjectMachine.Proofs.Scopes.Meanings
import ObjectMachine.Proofs.Scopes.Moves
import ObjectMachine.Proofs.Scopes.Naming
import ObjectMachine.Proofs.Scopes.OneModule
import ObjectMachine.Proofs.Scopes.OneName
import ObjectMachine.Proofs.Scopes.Parameters
import ObjectMachine.Proofs.Tasks.Delivery
import ObjectMachine.Proofs.Tasks.Holders
import ObjectMachine.Proofs.Tasks.Joining
import ObjectMachine.Proofs.Tasks.Schedules
import ObjectMachine.Proofs.Tasks.Threads
import ObjectMachine.Proofs.Tasks.Unjoined
import ObjectMachine.Proofs.Vm.Crediting
import ObjectMachine.Proofs.Vm.Ordinary
import ObjectMachine.Proofs.Vm.Quiet
import ObjectMachine.Proofs.Vm.Quiet.Calls
import ObjectMachine.Proofs.Vm.Quiet.Data
import ObjectMachine.Proofs.Vm.Rules
import ObjectMachine.Proofs.Vm.Rules.Calls
import ObjectMachine.Proofs.Vm.Rules.Data
import ObjectMachine.Ref
import ObjectMachine.Registry
import ObjectMachine.TaskSystem
import ObjectMachine.TaskSystem.Holders
import ObjectMachine.Text.Blank
import ObjectMachine.Text.Hex
import ObjectMachine.Text.Utf8
import ObjectMachine.Vm
import ObjectMachine.Vm.Call
import ObjectMachine.Vm.Copy
import ObjectMachine.Vm.Embedding
import ObjectMachine.Vm.Frames
import ObjectMachine.Vm.Make
import ObjectMachine.Vm.Operators
