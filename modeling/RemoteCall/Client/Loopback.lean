import RemoteCall.Client.Failure
import RemoteCall.Http.Service

/-!
# A transport without a network

Requests go straight to a service that is mounted at a root, which sees the targets below its root.
-/

namespace RemoteCall.Loopback

/-- A request as the service at a root sees it, or why it does not reach the service. -/
def strip (root : String) (r : Http.Request) : Except TransportError Http.Request :=
  let mount := Text.dropTrailing (· == '/') root.toList
  let target := r.uri.text
  if mount.isPrefixOf target.toList then
    let rest := match target.toList.drop mount.length with
      | '/' :: rest => '/' :: rest
      | rest => '/' :: rest
    match Http.Uri.parse (String.ofList rest) with
    | .ok uri => .ok { r with uri }
    | .error e => .error (.io ("bad uri " ++ String.ofList rest ++ ": " ++ e.message))
  else .error (.lost ("no route to " ++ target))

/-- The transport to a service that is mounted at a root. -/
def transport {σ : Type} (root : String) (service : Http.Service σ) : Transport σ := fun r s =>
  match strip root r with
  | .error e => (some (.error e), s)
  | .ok r =>
    let (response, s) := service r s
    (some (.ok response), s)

end RemoteCall.Loopback
