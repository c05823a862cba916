import RemoteCall.Cancel.Handle
import RemoteCall.Cancel.Registry

/-!
# Handles on a board

Running invocations and those who want to cancel them meet at a board: the register leads from an
identifier to a name, and under that name everybody finds the same handle. A request marks the
handle that is registered at that moment and no other, and a handle keeps its marks when it is no
longer registered.
-/

namespace RemoteCall.Cancel

/-- A register together with the handles that it leads to, which go by names of type `η`. -/
structure Board (η : Type) where
  registry : Registry η
  handles : List (η × CancelHandle)
  deriving Repr

namespace Board

variable {η : Type} [DecidableEq η]

/-- Nothing is registered, and no handle is known. -/
def empty : Board η := ⟨Registry.empty, []⟩

/-- The handle of a name; a name that is new stands for a fresh handle. -/
def handle (b : Board η) (name : η) : CancelHandle :=
  (b.handles.lookup name).getD .fresh

/-- Makes a name known. -/
def meet (b : Board η) (name : η) : Board η :=
  match b.handles.lookup name with
  | some _ => b
  | none => { b with handles := b.handles ++ [(name, .fresh)] }

/-- Changes the handle of a known name. -/
def update (b : Board η) (name : η) (f : CancelHandle → CancelHandle) : Board η :=
  { b with handles := b.handles.map fun (n, h) => if n = name then (n, f h) else (n, h) }

/-- Requests that whatever is registered under an identifier be cancelled. The first component is
the name of the handle that was marked. -/
def request (b : Board η) (id : InvocationId) (isAggressive : Bool) : Option η × Board η :=
  match b.registry.get? id with
  | none => (none, b)
  | some name => (some name, b.update name (·.cancel isAggressive))

/-- An invocation reports whether it was cancelled. -/
def acknowledge (b : Board η) (name : η) (cancelled : Bool) : Board η :=
  b.update name (·.acknowledge cancelled)

/-- Whether the invocation with a handle has reported. -/
def hasReport (b : Board η) (name : η) : Bool :=
  (b.handle name).acknowledged.isSome

/-- Registers a handle for as long as a guard is held. -/
def hold (b : Board η) (id : InvocationId) (name : η) : Guard η × Board η :=
  let (guard, registry) := b.registry.hold id name
  (guard, { b with registry })

/-- Releases a guard; a second release does nothing. -/
def release (b : Board η) (g : Guard η) : Guard η × Board η :=
  let (guard, registry) := b.registry.release g
  (guard, { b with registry })

theorem lookup_map_update {β : Type} (entries : List (η × β)) (name other : η) (f : β → β) :
    (entries.map fun (n, h) => if n = name then (n, f h) else (n, h)).lookup other =
      if other = name then (entries.lookup other).map f else entries.lookup other := by
  induction entries with
  | nil => simp
  | cons entry rest ih =>
      obtain ⟨n, h⟩ := entry
      by_cases hn : n = name
      · subst hn
        by_cases ho : other = n
        · simp [ho]
        · have hb : (other == n) = false := beq_false_of_ne ho
          simpa [List.lookup_cons, hb, ho] using ih
      · by_cases ho : other = n
        · subst ho
          simp [hn]
        · have hb : (other == n) = false := beq_false_of_ne ho
          simpa [List.lookup_cons, hb, hn] using ih

/-- Only the handle of the given name changes. -/
theorem handle_update_of_ne (b : Board η) {name other : η} (f : CancelHandle → CancelHandle)
    (h : other ≠ name) : (b.update name f).handle other = b.handle other := by
  simp [handle, update, lookup_map_update, h]

end Board

end RemoteCall.Cancel
