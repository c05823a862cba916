import RemoteCall.Codec.Resolver

/-!
# Two namespaces for one set of types

Legacy peers name certain packages with one root and current peers with another. Packages of the
platform itself kept their names, and so are never changed.
-/

namespace RemoteCall.Namespace

/-- The root of legacy names. -/
def legacyRoot : List Char := "javax.".toList

/-- The root of current names. -/
def currentRoot : List Char := "jakarta.".toList

/-- The packages below the root that have moved. -/
def movedPackages : List (List Char) :=
  ["annotation.", "ejb.", "enterprise.", "interceptor.", "jms.", "persistence.", "resource.",
    "transaction."].map String.toList

/-- A package of the platform inside a package that has moved. -/
def keptPackage : List Char := "transaction.xa.".toList

/-- Whether a name below the root belongs to a package that has moved. -/
def hasMoved (name : List Char) : Bool :=
  movedPackages.any (·.isPrefixOf name) && !keptPackage.isPrefixOf name

/-- A name under another root, if it has moved and is under the first root. -/
def changeRoot (old new : List Char) (name : List Char) : List Char :=
  if old.isPrefixOf name && hasMoved (name.drop old.length) then new ++ name.drop old.length
  else name

/-- The current name of a type. -/
def toCurrent (name : String) : String :=
  String.ofList (changeRoot legacyRoot currentRoot name.toList)

/-- The legacy name of a type. -/
def toLegacy (name : String) : String :=
  String.ofList (changeRoot currentRoot legacyRoot name.toList)

/-- Shows current names to the inner resolver and legacy names to the peer. -/
def translated (inner : Resolver) : Resolver :=
  inner.renamed toCurrent toLegacy

end RemoteCall.Namespace
