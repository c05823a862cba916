import RemoteCall.Http.Router

/-!
# Whoever serves requests

A service answers every request, with a state of its own. Services are put together by routes, and
a service may be wrapped so that it tells its version to those who ask.
-/

namespace RemoteCall.Http

/-- Answers a request, and may change its state. -/
abbrev Service (σ : Type) := Request → σ → Response × σ

variable {σ : Type}

/-- The service that hands every request to the one chosen by its path. -/
def Router.serve (r : Router (Service σ)) : Service σ := fun request s =>
  match r.select request with
  | .error response => (response, s)
  | .ok (service, request) => service request s

/-- The service that also tells its version to those who ask. -/
def Service.answeringProbes (service : Service σ) : Service σ := fun request s =>
  let (response, s) := service request s
  (response.answerProbe request, s)

theorem Service.answeringProbes_snd (service : Service σ) (request : Request) (s : σ) :
    (service.answeringProbes request s).2 = (service request s).2 := rfl

theorem Router.serve_of_find?_eq_none {r : Router (Service σ)} {request : Request} (s : σ)
    (h : r.find? request.uri.path.toList = none) :
    r.serve request s = (.bare .notFound, s) := by
  simp [Router.serve, Router.select, h]

end RemoteCall.Http
