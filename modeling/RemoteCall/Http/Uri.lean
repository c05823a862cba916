import RemoteCall.Text.Letters

/-!
# Targets of requests

A target is a path, a path behind a scheme and an authority, or an authority alone; a path may have
a query. Escapes are not decoded, and a fragment is dropped. The schemes `http` and `https` are
known in any case of letters and are shown in small ones; any other scheme is shown as it is
written.
-/

namespace RemoteCall.Http

/-- The target of a request. -/
structure Uri where
  /-- Scheme and authority, as they are shown before the path. -/
  authority : Option String
  path : String
  query : Option String
  deriving DecidableEq, Repr

/-- Why a text is no target. -/
inductive UriError where
  | empty
  | badCharacter
  | badAuthority
  | badFormat
  | longScheme
  | tooLong
  deriving DecidableEq, Repr

/-- The text shown for an error. -/
def UriError.message : UriError → String
  | empty => "empty string"
  | badCharacter => "invalid uri character"
  | badAuthority => "invalid authority"
  | badFormat => "invalid format"
  | longScheme => "scheme too long"
  | tooLong => "uri too long"

namespace Uri

/-- The most bytes that a target may have. -/
def maxSize : Nat := 65534

/-- The target as it is written. -/
def text (u : Uri) : String :=
  u.authority.getD "" ++ u.path ++
    match u.query with
    | some q => "?" ++ q
    | none => ""

/-- Whether a character may stand in a path. -/
def isPathChar (c : Char) : Bool :=
  let n := c.toNat
  n == 0x21 || n == 0x22 || (0x24 ≤ n && n ≤ 0x3B) || n == 0x3D || (0x40 ≤ n && n ≤ 0x5F) ||
    (0x61 ≤ n && n ≤ 0x7E) || 0x80 ≤ n

/-- Whether a character may stand in a query. -/
def isQueryChar (c : Char) : Bool :=
  let n := c.toNat
  n == 0x21 || (0x24 ≤ n && n ≤ 0x3B) || n == 0x3D || (0x3F ≤ n && n ≤ 0x7E) || 0x80 ≤ n

/-- Whether a character may stand in an authority. -/
def isAuthorityChar (c : Char) : Bool :=
  c.isAlphanum || c ∈ "!$%&'()*+,-.:;=@[]_~".toList

/-- A query up to the fragment. -/
def parseQuery (cs : List Char) : Except UriError String :=
  let query := cs.takeWhile (· != '#')
  if query.all isQueryChar then .ok (String.ofList query) else .error .badCharacter

/-- A path with an optional query; an empty path is the root. -/
def parsePath (authority : Option String) (cs : List Char) : Except UriError Uri := do
  let isEnd := fun c => c == '?' || c == '#'
  let path := cs.takeWhile fun c => !isEnd c
  if path.all isPathChar then
    let path := if path = [] then "/" else String.ofList path
    match cs.dropWhile fun c => !isEnd c with
    | '?' :: rest => do
      let query ← parseQuery rest
      pure ⟨authority, path, some query⟩
    | _ => pure ⟨authority, path, none⟩
  else .error .badCharacter

/-- The rest of a text after a beginning, up to the case of ASCII letters. -/
def afterScheme? (scheme : String) (cs : List Char) : Option (List Char) :=
  let n := scheme.toList.length
  if Text.sameFolded (cs.take n) scheme.toList then some (cs.drop n) else none

/-- Whether a character may stand in a scheme. -/
def isSchemeChar (c : Char) : Bool :=
  c.isAlphanum || c ∈ "+-.".toList

/-- The most characters that a scheme may have. -/
def maxScheme : Nat := 64

/-- A scheme, and what stands behind its slashes. -/
def splitScheme? (cs : List Char) : Option (List Char × List Char) :=
  match cs.dropWhile isSchemeChar with
  | ':' :: '/' :: '/' :: rest => some (cs.takeWhile isSchemeChar, rest)
  | _ => none

/-- What an authority has shown so far. Brackets enclose an address, and what stands before them or
before an at sign says nothing of the host and its port. -/
structure AuthorityScan where
  /-- Colons that may be the one before a port. -/
  colons : Nat
  isOpened : Bool
  isClosed : Bool
  /-- Whether there are escapes, which the host must not have. -/
  isEscaped : Bool

namespace AuthorityScan

/-- Nothing has been seen. -/
def start : AuthorityScan := ⟨0, false, false, false⟩

/-- The most colons of an address in brackets and its port. -/
def maxColons : Nat := 8

/-- One character more. -/
def next (s : AuthorityScan) (c : Char) : Except UriError AuthorityScan :=
  match c with
  | ':' =>
    if maxColons ≤ s.colons then .error .badAuthority
    else .ok { s with colons := s.colons + 1 }
  | '[' =>
    if s.isEscaped || s.isOpened then .error .badAuthority else .ok { s with isOpened := true }
  | ']' =>
    if !s.isOpened || s.isClosed then .error .badAuthority
    else .ok { s with isClosed := true, colons := 0, isEscaped := false }
  | '@' => .ok { s with colons := 0, isEscaped := false }
  | '%' => .ok { s with isEscaped := true }
  | c => if isAuthorityChar c then .ok s else .error .badCharacter

end AuthorityScan

/-- Whether an authority is one, with a host behind its user and one port at most. -/
def checkAuthority (authority : List Char) : Except UriError Unit := do
  let s ← authority.foldlM AuthorityScan.next AuthorityScan.start
  if s.isOpened != s.isClosed || 1 < s.colons || authority.getLast? == some '@' || s.isEscaped then
    throw .badAuthority

/-- Whether a character ends an authority. -/
def endsAuthority (c : Char) : Bool :=
  c == '/' || c == '?' || c == '#'

/-- An authority and what follows it, behind a scheme. -/
def parseAuthority (scheme : String) (cs : List Char) : Except UriError Uri := do
  let authority := cs.takeWhile fun c => !endsAuthority c
  checkAuthority authority
  if authority = [] then throw .badFormat
  parsePath (some (scheme ++ String.ofList authority)) (cs.dropWhile fun c => !endsAuthority c)

/-- An authority without a scheme, behind which nothing may follow. -/
def parseBare (cs : List Char) : Except UriError Uri := do
  let authority := cs.takeWhile fun c => !endsAuthority c
  checkAuthority authority
  if authority = cs then pure ⟨some (String.ofList cs), "", none⟩
  else throw (if cs.length = 1 then .badCharacter else .badFormat)

/-- The target that a text names: an asterisk, a path, a path behind a scheme and an authority, or
an authority. -/
def parse (s : String) : Except UriError Uri :=
  if maxSize < s.utf8ByteSize then .error .tooLong
  else
    match s.toList with
    | [] => .error .empty
    | ['*'] => .ok ⟨none, "*", none⟩
    | '/' :: rest => parsePath none ('/' :: rest)
    | cs =>
      match afterScheme? "http://" cs, afterScheme? "https://" cs, splitScheme? cs with
      | some rest, _, _ => parseAuthority "http://" rest
      | none, some rest, _ => parseAuthority "https://" rest
      | none, none, some (scheme, rest) =>
        if maxScheme < scheme.length then .error .longScheme
        else parseAuthority (String.ofList (scheme ++ "://".toList)) rest
      | none, none, none => parseBare cs

end Uri

end RemoteCall.Http
