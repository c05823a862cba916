import RemoteCall.Invocation.SessionToken
import RemoteCall.ProtocolError
import RemoteCall.Text.Split

/-!
# Addresses of invocations

An invocation is addressed by a path: application, module, distinct name, component, session,
view, method and the types of its parameters, with a dash for what is empty. A dash and an empty
segment mean the same where something may be empty, so a path has one rendered form but several
that are read.
-/

namespace RemoteCall

/-- The name of a deployed component. -/
structure ComponentId where
  app : String
  moduleName : String
  distinct : String
  component : String
  deriving DecidableEq, Repr

/-- The four names of a component between slashes. -/
def ComponentId.text (c : ComponentId) : String :=
  c.app ++ "/" ++ c.moduleName ++ "/" ++ c.distinct ++ "/" ++ c.component

/-- A method by its name and the types of its parameters. -/
structure MethodId where
  name : String
  parameterTypes : List String
  deriving DecidableEq, Repr

/-- A method as it is shown in messages. -/
def MethodId.text (m : MethodId) : String :=
  m.name ++ "(" ++ ",".intercalate m.parameterTypes ++ ")"

/-- What an invocation is addressed to. -/
structure Address where
  component : ComponentId
  /-- The bytes that identify a session; absent where no session is addressed. -/
  session : Option Bytes
  view : String
  method : MethodId
  deriving DecidableEq, Repr

namespace Address

/-- A name, or a dash if it is empty. -/
def dash (name : List Char) : List Char :=
  if name = [] then ['-'] else name

/-- A segment, or the empty name if it is a dash. -/
def undash (segment : List Char) : List Char :=
  if segment = ['-'] then [] else segment

/-- The segment for a session: its token, or a dash where there is none. -/
def sessionSegment : Option Bytes → List Char
  | none => ['-']
  | some [] => ['-']
  | some id => (SessionToken.encode id).map fun b => Char.ofNat b.toNat

/-- The session that a segment stands for. -/
def session? (segment : List Char) : Except ProtocolError (Option Bytes) :=
  match undash segment with
  | [] => .ok none
  | token =>
    match SessionToken.decode (Bytes.ofText (String.ofList token)) with
    | .ok id => .ok (some id)
    | .error e => .error (.malformedAddress ("session id: " ++ e.message))

/-- The segments of a rendered address. -/
def segments (a : Address) : List (List Char) :=
  dash a.component.app.toList :: dash a.component.moduleName.toList ::
    dash a.component.distinct.toList :: a.component.component.toList ::
    sessionSegment a.session :: a.view.toList :: a.method.name.toList ::
    a.method.parameterTypes.map String.toList

/-- The path of an address, without a slash before it. -/
def render (a : Address) : String :=
  String.ofList (Text.join '/' a.segments)

/-- The segments of a path: one slash before it and all slashes after it say nothing. -/
def pathSegments (path : List Char) : List (List Char) :=
  let inner := match path with
    | '/' :: rest => rest
    | _ => path
  ((Text.split '/' inner).reverse.dropWhile List.isEmpty).reverse

/-- The address with the given segments. -/
def ofSegments : List (List Char) → Except ProtocolError Address
  | app :: moduleName :: distinct :: component :: session :: view :: method :: types => do
    let session ← session? session
    pure {
      component := {
        app := String.ofList (undash app)
        moduleName := String.ofList (undash moduleName)
        distinct := String.ofList (undash distinct)
        component := String.ofList component }
      session
      view := String.ofList view
      method := ⟨String.ofList method, types.map String.ofList⟩ }
  | few => .error (.shortAddress few.length)

/-- The address that a path stands for. -/
def parse (path : String) : Except ProtocolError Address :=
  ofSegments (pathSegments path.toList)

/-- What has to hold of an address for its path to lead back to it. No name may contain a slash, a
name that is written as a dash when empty must not be a dash, a session must not be empty, and the
path must not end in an empty segment. -/
structure Carriable (a : Address) : Prop where
  no_slash : ∀ name ∈ a.component.app :: a.component.moduleName :: a.component.distinct ::
    a.component.component :: a.view :: a.method.name :: a.method.parameterTypes,
    '/' ∉ name.toList
  no_dash : ∀ name ∈ [a.component.app, a.component.moduleName, a.component.distinct], name ≠ "-"
  session_ne_empty : a.session ≠ some []
  last_ne_empty : (a.method.name :: a.method.parameterTypes).getLast? ≠ some ""

/-- Whether a session is addressed. -/
def isStateful (a : Address) : Bool :=
  a.session.isSome

/-- A method takes exactly the parameters that it declares. -/
def checkArity (a : Address) (supplied : Nat) : Except ProtocolError Unit :=
  if a.method.parameterTypes.length = supplied then .ok ()
  else
    .error (.violation ("method " ++ a.method.name ++ " declares " ++
      toString a.method.parameterTypes.length ++ " parameters, " ++ toString supplied ++
      " supplied"))

end Address

end RemoteCall
