import RemoteCall.Branch.Outcome
import RemoteCall.Client.Context
import RemoteCall.Proofs.Service.Dialect

/-!
# Errors of branches travel between any two ends

The exception that carries the error of a branch has a class of the platform, which has the same
name in both namespaces. So it is written alike for every peer, and it is read back with its code
and its message by an end that takes the version to be another one than the end that wrote it.
-/

namespace RemoteCall

namespace XaError

open Fault.Class

variable {d d' : Dialect} {e : XaError} {b : Bytes}

theorem typeNames_toRemote (e : XaError) :
    e.toRemote.toValue.typeNames = [transactionError] := rfl

theorem ofRemote?_toRemote (e : XaError) :
    ofRemote? e.toRemote = some (.make e.code e.message) := rfl

/-- The class of these exceptions is written as it is by every service. -/
theorem annotate_service (config : ServiceConfig) (peer : ProtocolVersion) :
    (config.dialect peer).resolver.annotate transactionError = transactionError :=
  config.annotate_eq_self peer (by decide)

/-- These exceptions are written by a client as by any service. -/
theorem annotate_client (c : Context) :
    c.dialect.resolver.annotate transactionError = transactionError := by
  unfold Context.dialect
  dsimp only
  split
  · change Namespace.toLegacy transactionError = _
    decide
  · rfl

/-- A client gives back these exceptions, whatever the version of its connection. -/
theorem client_restores (c : Context) (e : XaError) :
    c.dialect.resolver.Restores e.toRemote.toValue := by
  unfold Context.dialect
  dsimp only
  split
  · refine Resolver.translated_restores fun name hname => ?_
    rw [typeNames_toRemote] at hname
    obtain rfl := List.mem_singleton.mp hname
    decide
  · exact Resolver.plain_restores _

/-- An error with a message that can be written is written to its end. -/
theorem exists_write_toRemote (hd : d.resolver.annotate transactionError = transactionError)
    (h : (Bytes.ofText e.message).length < 0x100000000) :
    ∃ b, (e.toRemote.write d).result = .ok b := by
  refine RemoteException.exists_write_of_fits ?_ fun m hm => ?_
  · change Codec.Fits (d.resolver.annotate transactionError)
    rw [hd]
    decide
  · obtain rfl := Option.some.inj hm
    exact h

/-- An error is read back by a client, in whatever dialect it was written. -/
theorem outcome_read_toRemote {c : Context} (hk : c.known.Coherent) (hknown : d.known = c.known)
    (hd : d.resolver.annotate transactionError = transactionError)
    (hw : (e.toRemote.write d).result = .ok b) :
    Reader.outcome (RemoteException.read c.dialect) b = .ok e.toRemote := by
  have hsame : Codec.write d e.toRemote.toValue = Codec.write c.dialect e.toRemote.toValue := by
    refine Codec.writeValue_congr hknown fun name hname => ?_
    rw [typeNames_toRemote] at hname
    obtain rfl := List.mem_singleton.mp hname
    rw [hd, annotate_client]
  unfold RemoteException.write Wire.value at hw
  rw [hsame] at hw
  exact RemoteException.outcome_read hk (client_restores c e) hw

end XaError

end RemoteCall
