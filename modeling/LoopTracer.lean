import LoopTracer.Bytecode.Image
import LoopTracer.Bytecode.Listing
import LoopTracer.Bytecode.Load
import LoopTracer.Bytecode.Opcode
import LoopTracer.Bytecode.Program
import LoopTracer.Bytecode.Source
import LoopTracer.Bytecode.StackDepth
import LoopTracer.Bytecode.Value
import LoopTracer.Bytecode.Verify
import LoopTracer.Command.Directory
import LoopTracer.Command.Options
import LoopTracer.Command.Run
import LoopTracer.Compile.Assembly
import LoopTracer.Compile.Chain
import LoopTracer.Compile.CodePages
import LoopTracer.Compile.Registers
import LoopTracer.Fault
import LoopTracer.File
import LoopTracer.Fragment.Basic
import LoopTracer.Fragment.Cache
import LoopTracer.Interp.Operation
import LoopTracer.Interp.State
import LoopTracer.Interp.Step
import LoopTracer.Interp.Traced
import LoopTracer.Interp.Vm
import LoopTracer.Machine.Backend
import LoopTracer.Machine.Draft
import LoopTracer.Machine.Execution
import LoopTracer.Machine.Memory
import LoopTracer.Machine.Operation
import LoopTracer.Machine.Target
import LoopTracer.Machine.Virtual
import LoopTracer.Machine.X64
import LoopTracer.Main
import LoopTracer.Monitor.Basic
import LoopTracer.Monitor.Config
import LoopTracer.Monitor.Report
import LoopTracer.Monitor.Settings
import LoopTracer.Monitor.Shared
import LoopTracer.Monitor.Workbench
import LoopTracer.Number.Binary64
import LoopTracer.Number.Reading
import LoopTracer.Number.Shortest
import LoopTracer.Number.Signed
import LoopTracer.Proofs.Compile.Allocating
import LoopTracer.Proofs.Compile.Allotment
import LoopTracer.Proofs.Compile.Assembled
import LoopTracer.Proofs.Compile.Calling
import LoopTracer.Proofs.Compile.Chains
import LoopTracer.Proofs.Compile.Completion
import LoopTracer.Proofs.Compile.Delivery
import LoopTracer.Proofs.Compile.Departing
import LoopTracer.Proofs.Compile.Layout
import LoopTracer.Proofs.Compile.Linking
import LoopTracer.Proofs.Compile.Mirroring
import LoopTracer.Proofs.Compile.Placing
import LoopTracer.Proofs.Compile.Rendering
import LoopTracer.Proofs.Compile.Requests
import LoopTracer.Proofs.Compile.Restoring
import LoopTracer.Proofs.Compile.Room
import LoopTracer.Proofs.Compile.Standing
import LoopTracer.Proofs.Compile.Translating
import LoopTracer.Proofs.Compile.Walking
import LoopTracer.Proofs.Compile.Workshop
import LoopTracer.Proofs.Fragment.Dependents
import LoopTracer.Proofs.Fragment.Eviction
import LoopTracer.Proofs.Fragment.Excision
import LoopTracer.Proofs.Fragment.Filing
import LoopTracer.Proofs.Fragment.Guards
import LoopTracer.Proofs.Fragment.Housing
import LoopTracer.Proofs.Fragment.Persistence
import LoopTracer.Proofs.Fragment.Reversal
import LoopTracer.Proofs.Fragment.Running
import LoopTracer.Proofs.Fragment.Standing
import LoopTracer.Proofs.Fragment.Wiring
import LoopTracer.Proofs.Image.Contents
import LoopTracer.Proofs.Image.Denoted
import LoopTracer.Proofs.Image.RoundTrip
import LoopTracer.Proofs.Image.Truncated
import LoopTracer.Proofs.Interp.Agreement
import LoopTracer.Proofs.Interp.Handles
import LoopTracer.Proofs.Interp.Instructions
import LoopTracer.Proofs.Interp.Isolation
import LoopTracer.Proofs.Interp.Outcomes
import LoopTracer.Proofs.Interp.Reached
import LoopTracer.Proofs.Interp.SealedTrace
import LoopTracer.Proofs.Machine.Decoding
import LoopTracer.Proofs.Machine.Effects
import LoopTracer.Proofs.Machine.Lengths
import LoopTracer.Proofs.Machine.Lowering
import LoopTracer.Proofs.Machine.Patching
import LoopTracer.Proofs.Machine.Performing
import LoopTracer.Proofs.Machine.RegisterSets
import LoopTracer.Proofs.Machine.Running
import LoopTracer.Proofs.Monitor.Abandoned
import LoopTracer.Proofs.Monitor.Assemblies
import LoopTracer.Proofs.Monitor.CodeRegion
import LoopTracer.Proofs.Monitor.Conservation
import LoopTracer.Proofs.Monitor.Dropping
import LoopTracer.Proofs.Monitor.Invariants
import LoopTracer.Proofs.Monitor.Lookups
import LoopTracer.Proofs.Monitor.Operations
import LoopTracer.Proofs.Monitor.Retries
import LoopTracer.Proofs.Monitor.Serving
import LoopTracer.Proofs.Number.Narrowing
import LoopTracer.Proofs.Source.Constants
import LoopTracer.Proofs.Source.Placement
import LoopTracer.Proofs.Source.ReadBack
import LoopTracer.Proofs.Trace.Independence
import LoopTracer.Proofs.Trace.Interning
import LoopTracer.Proofs.Trace.Sealing
import LoopTracer.Proofs.Trace.Shape
import LoopTracer.Proofs.Trace.Shaping
import LoopTracer.Proofs.Trace.StringHeap
import LoopTracer.Proofs.Trace.Supply
import LoopTracer.Proofs.Trace.Tracking
import LoopTracer.Proofs.Verification.Depths
import LoopTracer.Proofs.Verification.Exact
import LoopTracer.Proofs.Verification.Strict
import LoopTracer.Text.Basic
import LoopTracer.Text.Blank
import LoopTracer.Text.Printable
import LoopTracer.Text.Quoted
import LoopTracer.Text.Utf8
import LoopTracer.Toml.Basic
import LoopTracer.Toml.Keys
import LoopTracer.Toml.Reader
import LoopTracer.Trace.Abort
import LoopTracer.Trace.Buffer
import LoopTracer.Trace.Helper
import LoopTracer.Trace.Inst
import LoopTracer.Trace.Primitive
import LoopTracer.Trace.Recorder
import LoopTracer.Trace.SideExit
import LoopTracer.Trace.SlotMap
import LoopTracer.Trace.StringHeap
import LoopTracer.Trace.Type
