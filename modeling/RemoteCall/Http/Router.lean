import RemoteCall.Http.Message

/-!
# Choosing who serves a request

Routes are kept with the longest prefixes first, and a prefix only matches whole segments of the
path. Whoever is chosen sees the rest of the path.
-/

namespace RemoteCall.Http

/-- Routes, longest prefix first. -/
structure Router (α : Type) where
  routes : List (String × α)

namespace Router

variable {α : Type}

/-- No routes. -/
def empty : Router α := ⟨[]⟩

/-- Puts a route before the first one with a prefix of fewer bytes. -/
def place (route : String × α) : List (String × α) → List (String × α)
  | [] => [route]
  | other :: rest =>
    if other.1.utf8ByteSize < route.1.utf8ByteSize then route :: other :: rest
    else other :: place route rest

/-- A prefix without the slashes at its end, which say nothing. -/
def normalize (pre : String) : String :=
  String.ofList (Text.dropTrailing (· == '/') pre.toList)

/-- Adds a route. -/
def add (r : Router α) (pre : String) (handler : α) : Router α :=
  ⟨place (normalize pre, handler) r.routes⟩

/-- The routes that result from adding one after the other. -/
def ofList (routes : List (String × α)) : Router α :=
  routes.foldl (fun r (pre, handler) => r.add pre handler) empty

/-- What a prefix leaves of a path, if it matches whole segments. -/
def rest? (pre path : List Char) : Option (List Char) :=
  if pre.isPrefixOf path then
    match path.drop pre.length with
    | [] => some []
    | '/' :: rest => some ('/' :: rest)
    | _ => none
  else none

/-- The first route that matches, and the rest of the path. -/
def find? (r : Router α) (path : List Char) : Option (α × List Char) :=
  r.routes.findSome? fun (pre, handler) => (rest? pre.toList path).map fun rest => (handler, rest)

/-- The text of the target that the chosen one sees. -/
def relative (rest : List Char) (query : Option String) : String :=
  let target := rest ++ match query with
    | some q => '?' :: q.toList
    | none => []
  match target with
  | '/' :: _ => String.ofList target
  | _ => String.ofList ('/' :: target)

/-- Who serves a request, and the request as they see it; or the response if nobody does. -/
def select (r : Router α) (request : Request) : Except Response (α × Request) :=
  match r.find? request.uri.path.toList with
  | none => .error (.bare .notFound)
  | some (handler, rest) =>
    match Uri.parse (relative rest request.uri.query) with
    | .ok uri => .ok (handler, { request with uri })
    | .error _ => .error (.bare .badRequest)

end Router

end RemoteCall.Http
