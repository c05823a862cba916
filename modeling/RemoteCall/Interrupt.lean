import RemoteCall.Timeline

/-!
# Interrupts

A flag by which a caller gives up a wait. Once raised it stays raised until it is lowered, so a
caller who was interrupted still sees it afterwards.
-/

namespace RemoteCall

/-- Whether an interrupt has been raised. -/
structure Interrupt where
  raised : Bool
  deriving DecidableEq, Repr

namespace Interrupt

/-- A lowered flag. -/
def lowered : Interrupt := ⟨false⟩

/-- Raises the flag. -/
def raise (_ : Interrupt) : Interrupt := ⟨true⟩

/-- The text shown for a flag. -/
def text (i : Interrupt) : String :=
  if i.raised then "Interrupt(true)" else "Interrupt(false)"

/-- Waits until the flag is raised, which may happen meanwhile. -/
def await (limit : Nat) (t : Timeline Interrupt Unit) : Bool × Timeline Interrupt Unit :=
  let (answer, t) := t.await (fun _ => raise) (fun i => if i.raised then some () else none) limit
  (answer.isSome, t)

end Interrupt

end RemoteCall
