import RemoteCall.Invocation.Target

/-!
# Deployed components

Components with a fixed behaviour, found by name. They stand for the code that a service hosts:
each kind of behaviour shows something else about the way in which it was called.
-/

namespace RemoteCall

/-- What a component does when it is called. -/
inductive Behaviour where
  /-- Gives its first parameter back. -/
  | echo
  | constant (v : Value)
  | throw (e : RemoteException)
  /-- Turns out to be gone. -/
  | vanish (error : Locator → MethodId → TargetError)
  | cancelled
  | breakDown (message : String)
  /-- Records work under the transaction of the caller. -/
  | enlist (times : Nat)
  /-- Waits until its gate is opened, or until it is asked to stop, unless it is stubborn. -/
  | park (isStubborn : Bool)
  /-- Tells how it was called. -/
  | describe

/-- A component with what it offers; absent lists stand for anything. -/
structure Component where
  name : String
  behaviour : Behaviour
  homes : List String
  views : Option (List String)
  methods : Option (List String)
  /-- The sessions that are active; absent where the component keeps none. -/
  sessions : Option (List Bytes)

/-- The components of a service. -/
structure Deployment where
  components : List Component
  /-- Whether home views are told apart from others. -/
  knowsHomes : Bool

namespace Deployment

/-- The component that an identifier names. -/
def find? (d : Deployment) (id : ComponentId) : Option Component :=
  d.components.find? (·.name == id.component)

/-- Whether a view is the home of a component. -/
def isHome (d : Deployment) (id : ComponentId) (view : String) : Bool :=
  d.knowsHomes && match d.find? id with
    | some c => c.homes.contains view
    | none => false

/-- Whether an optional list names something. -/
def admits (names : Option (List String)) (name : String) : Bool :=
  match names with
  | some l => l.contains name
  | none => true

/-- Looks a target up. Of a home nothing is checked but that its component exists. -/
def locate (d : Deployment) (l : Locator) (m : MethodId) : Except TargetError Component :=
  match d.find? l.component with
  | none => .error (.noSuchComponent l.component)
  | some c =>
    if l.access = .home then .ok c
    else if !admits c.views l.view then .error (.wrongView l.view)
    else if !admits c.methods m.name then .error (.noSuchMethod m)
    else
      match l.access, c.sessions with
      | .stateful _, none => .error (.notStateful l.component)
      | .stateful id, some active =>
        if active.contains id then .ok c else .error (.sessionNotActive l.component)
      | _, _ => .ok c

end Deployment

/-- An optional text as a value. -/
def optionalText (s : Option String) : Value :=
  match s with
  | some s => .text s
  | none => .null

/-- How a target was called, as a list: whom, how, with what, and on whose behalf. `importedName`
is the name of the branch in which the service takes part. -/
def ResolvedCall.describe (c : ResolvedCall) (importedName : Option String) : Value :=
  .list [
    .text c.locator.component.text,
    .text c.locator.view,
    match c.locator.access with
      | .stateless => .text "stateless"
      | .stateful id => .bytes id
      | .home => .text "home",
    .text c.method.text,
    .list c.parameters,
    .list (c.attachments.toList.map fun (k, v) => .list [.text k, v]),
    optionalText c.affinity,
    match c.transaction with
      | some t => .list [.text t.xid.text, .int t.timeout]
      | none => .null,
    optionalText importedName,
    optionalText (c.identifier.map InvocationId.text)]

end RemoteCall
