import LoopTracer.Text.Basic

/-! Faults: calls outside an operation's contract.

An operation that refuses its input answers an error of its own domain. A `Fault` is the other
case: the caller broke a rule that the operation never checks for it, such as an index outside
an array, an instruction appended to a sealed buffer or a branch patched where there is none.
Every fault names its cause; `message` holds the wording. -/
namespace LoopTracer

/-- What rule a call broke. -/
inductive Fault where
  /-- An index, a slice, a missing object or a block of memory that cannot be had. -/
  | bounds
  | badHandle (handle : Nat)
  | unknownHelper (id : Nat)
  | slotAddress (address : Int)
  | invalidRef (slot : Text) (ref : Int)
  | untracked (slot : Text)
  | appendToSealed
  | beforeDefinition (op : Text) (at_ : Nat) (ref : Int)
  | valueless (op : Text) (at_ : Nat) (source : Text) (ref : Int)
  | snapshotRef (at_ : Nat) (ref : Int)
  | strayOverflow (at_ : Nat)
  | noSideExit (at_ : Nat)
  | sealedTwice
  | noTerminal
  | noMachineOp (op : Text)
  | notCompare (op : Text)
  | commitWhile (state : Text)
  | registerHeld (register : Text) (ref : Int)
  | stillLive (ref : Int)
  | cannotAssemble (op : Text)
  | freeingPage (kind : Text) (page : Nat)
  | addingPeer (fragment : Text)
  | foreignGuard (guard : Nat) (fragment : Text)
  | discarding (fragment : Text)
  | registeredTwice (guard : Nat)
  | promotingTo (guard : Nat) (fragment : Text)
  | pageOverflow (need : Nat) (free : Int)
  | notBranch (site op : Text)
  | noBranch (site : Text)
  | binaryForm (op : Text)
  | unaryForm (op : Text)
  | belowSetting (kind : Text)
  | unassignable (value setting : Text)

namespace Fault

/-- The wording of a fault. -/
def message : Fault → Text
  | bounds => "runtime error"
  | badHandle h => "jit: bad string handle " ++ .ofNat h
  | unknownHelper id => "jit: unknown helper " ++ .ofNat id
  | slotAddress a => "jit: bad slot address " ++ .ofInt a
  | invalidRef s r => "jit: tracking " ++ s ++ " to invalid ref " ++ .ofInt r
  | untracked s => "jit: get of untracked address " ++ s
  | appendToSealed => "jit: append to sealed IR buffer"
  | beforeDefinition op n r =>
    "jit: " ++ op ++ " at " ++ .ofNat n ++ " references " ++ .ofInt r ++ " before its definition"
  | valueless op n source r =>
    "jit: " ++ op ++ " at " ++ .ofNat n ++ " uses valueless " ++ source ++ " at " ++ .ofInt r
  | snapshotRef n r => "jit: snapshot of guard at " ++ .ofNat n ++ " references " ++ .ofInt r
  | strayOverflow n => "jit: xov at " ++ .ofNat n ++ " must follow its overflow op"
  | noSideExit n => "jit: guard at " ++ .ofNat n ++ " has no side exit"
  | sealedTwice => "jit: IR buffer sealed twice"
  | noTerminal => "jit: IR buffer must end with a terminal instruction"
  | noMachineOp op => "jit: " ++ op ++ " has no machine op"
  | notCompare op => "jit: " ++ op ++ " is not a compare"
  | commitWhile s => "jit: commit while " ++ s
  | registerHeld r v => "jit: " ++ r ++ " already holds v" ++ .ofInt v
  | stillLive v => "jit: v" ++ .ofInt v ++ " still live at trace entry"
  | cannotAssemble op => "jit: cannot assemble " ++ op
  | freeingPage kind p => "jit: freeing " ++ kind ++ " code page " ++ .ofNat p
  | addingPeer f => "jit: adding peer to " ++ f
  | foreignGuard g f => "jit: guard#" ++ .ofNat g ++ " does not belong to " ++ f
  | discarding f => "jit: discarding " ++ f
  | registeredTwice g => "jit: guard#" ++ .ofNat g ++ " registered twice"
  | promotingTo g f => "jit: promoting guard#" ++ .ofNat g ++ " to non-executable " ++ f
  | pageOverflow need free =>
    "platform: code page overflow (need " ++ .ofNat need ++ ", free " ++ .ofInt free ++ ")"
  | notBranch site op => "platform: patch site " ++ site ++ " is " ++ op ++ ", not a branch"
  | noBranch site => "platform: no rel32 branch at " ++ site
  | binaryForm op => "platform: x86-64 binary op " ++ op
  | unaryForm op => "platform: x86-64 unary op " ++ op
  | belowSetting kind => "unhandled part: " ++ kind
  | unassignable value setting =>
    "reflect.Set: value of type " ++ value ++ " is not assignable to type " ++ setting

end Fault

/-- The most bytes of one block of memory. -/
def maxBlock : Int := Nat.pow 2 48

/-- Whether a block of `count` items of `size` bytes each can be had. -/
def blockFits (count : Int) (size : Nat) : Bool := 0 ≤ count && count * size ≤ maxBlock

end LoopTracer
