import Spl.Ty.Size

/-!
# Stack frames

The frame of a procedure lies between its frame pointer (above) and its stack pointer (below). The
arguments lie above the frame pointer, in the outgoing area of the caller:

    caller's outgoing area   the arguments of this procedure
    FP -> ----------------
          local variables
          old frame pointer  one word
          return address     one word
          outgoing area      the arguments of the procedures that it calls
    SP -> ----------------

A leaf frame, of a procedure that calls nothing, holds the local variables only.

* `FrameLayout.frameSize`: the distance from the stack pointer to the frame pointer.
* `FrameLayout.oldFramePointerOffset`, `FrameLayout.returnAddressOffset`: the two linkage words.
-/

namespace Spl

/-- The bytes of the two linkage words. -/
def linkageBytes : Word := 8

/-- The sizes of the areas of a frame, in bytes; none of them is known before the frame is
allocated. -/
structure FrameLayout where
  argumentArea : Option Word := none
  localArea : Option Word := none
  outgoingArea : Option Word := none
  isLeaf : Bool := false
  deriving DecidableEq, Inhabited

namespace FrameLayout

/-- True when the sizes of all areas are known. -/
def isAllocated (layout : FrameLayout) : Bool :=
  layout.argumentArea.isSome && layout.localArea.isSome && layout.outgoingArea.isSome

/-- The bytes of the frame. -/
def frameSize (layout : FrameLayout) : Except Fault (Option Word) :=
  match layout.localArea, layout.isLeaf, layout.outgoingArea with
  | none, _, _ => .ok none
  | some locals, true, _ => .ok (some locals)
  | some _, false, none => .ok none
  | some locals, false, some outgoing => do
    return some (← (← locals.sum outgoing).sum linkageBytes)

/-- Where the caller's frame pointer is saved, from the stack pointer. A leaf frame does not save
it. -/
def oldFramePointerOffset (layout : FrameLayout) : Except Fault (Option Word) :=
  match layout.isLeaf, layout.outgoingArea with
  | true, _ | false, none => .ok none
  | false, some outgoing => do return some (← outgoing.sum wordBytes)

/-- Where the return address is saved, from the frame pointer. A leaf frame does not save it. -/
def returnAddressOffset (layout : FrameLayout) : Except Fault (Option Word) :=
  match layout.isLeaf, layout.localArea with
  | true, _ | false, none => .ok none
  | false, some locals => do return some (← (← locals.sum linkageBytes).negation)

end FrameLayout

end Spl
