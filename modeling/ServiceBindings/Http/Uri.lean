import ServiceBindings.Text.Expect
import ServiceBindings.Text.Percent

/-! Addresses of requests: pairs of a query, and what an address must look like to be sent. -/
namespace ServiceBindings.Http

/-- Appends pairs to an address. The first one opens the query, unless the address has one. -/
def withQuery (uri : String) (pairs : List (String × String)) : String :=
  let written := pairs.map fun pair => Text.Percent.query pair.1 ++ "=" ++ Text.Percent.query pair.2
  if written = [] then uri
  else uri ++ (if uri.toList.contains '?' then "&" else "?") ++ "&".intercalate written

def isPathChar (c : Char) : Bool :=
  let n := c.toNat
  n = 0x21 || n = 0x22 || 0x24 ≤ n && n ≤ 0x3B || n = 0x3D || 0x40 ≤ n && n ≤ 0x5F ||
    0x61 ≤ n && n ≤ 0x7E || 0x80 ≤ n

def isQueryChar (c : Char) : Bool :=
  let n := c.toNat
  n = 0x21 || 0x24 ≤ n && n ≤ 0x3B || n = 0x3D || 0x3F ≤ n && n ≤ 0x7E || 0x80 ≤ n

/-- A character of the part that names user, host and port. -/
def isAuthorityChar (c : Char) : Bool :=
  c.isAlphanum || "!$&'()*+,-.:;=@[]_~%".toList.contains c

/-- A path and query without the fragment, which begins with a hash. An empty path is a slash. -/
def pathAndQuery? (chars : List Char) : Option (List Char) :=
  let chars := chars.takeWhile (· ≠ '#')
  let path := chars.takeWhile (· ≠ '?')
  let query := chars.dropWhile (· ≠ '?')
  if path.all isPathChar ∧ query.all isQueryChar then
    some ((if path = [] then ['/'] else path) ++ query)
  else none

/-- What has been seen of an authority. -/
structure AuthorityScan where
  /-- Colons that may stand before a port. -/
  colons : Nat := 0
  opened : Bool := false
  closed : Bool := false
  /-- Whether a percent sign may belong to the host. -/
  percent : Bool := false
  endsAt : Bool := false

/-- Takes a character. Colons and percent signs before an at sign or inside brackets are forgotten.
-/
def AuthorityScan.step? (scan : AuthorityScan) (c : Char) : Option AuthorityScan :=
  let scan := { scan with endsAt := c = '@' }
  if ¬isAuthorityChar c then none
  else if c = ':' then
    if 8 ≤ scan.colons then none else some { scan with colons := scan.colons + 1 }
  else if c = '[' then
    if scan.percent ∨ scan.opened then none else some { scan with opened := true }
  else if c = ']' then
    if scan.opened ∧ ¬scan.closed then
      some { scan with closed := true, colons := 0, percent := false }
    else none
  else if c = '@' then some { scan with colons := 0, percent := false }
  else if c = '%' then some { scan with percent := true }
  else some scan

/-- An authority: its brackets are balanced, it has at most one port, and a host behind its user. -/
def isAuthority (chars : List Char) : Bool :=
  match chars.foldlM AuthorityScan.step? {} with
  | some scan => scan.opened = scan.closed && scan.colons ≤ 1 && !scan.endsAt && !scan.percent
  | none => false

/-- A character before the authority. -/
def isSchemeChar (c : Char) : Bool :=
  c.isAlphanum || c = '+' || c = '-' || c = '.' || c = '~'

def maxAddressSize : Nat := 65534

def maxSchemeLength : Nat := 64

/-- The scheme with which an address begins, and what follows its slashes. -/
def scheme? (chars : List Char) : Option (List Char × List Char) :=
  let scheme := chars.takeWhile isSchemeChar
  match Text.expect? "://".toList (chars.dropWhile isSchemeChar) with
  | none => none
  | some rest =>
    let lower := scheme.map Char.toLower
    some (if lower = "http".toList ∨ lower = "https".toList then lower else scheme, rest)

/-- The address of a request as it is sent: a path, an authority alone, or a scheme with an
authority and a path. None if it is too long or not well formed. -/
def requestUri? (s : String) : Option String :=
  let chars := s.toList
  let ends := fun c : Char => c = '/' || c = '?' || c = '#'
  if maxAddressSize < s.utf8ByteSize then none
  else
    match chars with
    | [] => none
    | '/' :: _ => (pathAndQuery? chars).map String.ofList
    | ['*'] => some "*"
    | _ =>
      match scheme? chars with
      | some (scheme, rest) =>
        let authority := rest.takeWhile (!ends ·)
        if scheme.length ≤ maxSchemeLength ∧ authority ≠ [] ∧ isAuthority authority then
          (pathAndQuery? (rest.dropWhile (!ends ·))).map fun path =>
            String.ofList (scheme ++ ':' :: '/' :: '/' :: (authority ++ path))
        else none
      | none => if isAuthority chars then some s else none

end ServiceBindings.Http
