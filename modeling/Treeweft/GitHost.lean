import Treeweft.Dispatch
import Treeweft.Inet

/-!
The host that a Git URL is judged by, and the host that git contacts.

The judge reads a URL by `urlsplit` and anything else from its last colon; git reads both by its own
syntax, and the resolver takes numeric hosts in every spelling of `inet_aton`.
-/

namespace Treeweft.GitHost

open Treeweft.Dispatch (GitPolicy gitUrlHost isSafeGitUrl gitUrlSchemes beforeFirst contains)
open Treeweft.Webhook (afterFirst startsWith)

/-! ### Addresses and the Policy -/

/-- What `ipaddress` says of an address. -/
structure Traits where
  loopback : Bool
  linkLocal : Bool
  unspecified : Bool
  multicast : Bool
  reserved : Bool
  isPrivate : Bool
  deriving DecidableEq, Repr

/-- A deployment and its resolver. The private ranges of IPv4, the IPv6 literals, the names and the
checks by which `urlsplit` raises are taken as they are. -/
structure Policy where
  allowLoopback : Bool
  blockPrivate : Bool
  allowedHosts : List String
  privateRange : ℕ → Bool
  ipv6 : List Char → Option Traits
  lookup : List Char → List Traits
  netlocValid : List Char → Bool

section Policy
variable (pol : Policy)

def ipv4 (a : ℕ) : Traits where
  loopback := a / 2 ^ 24 = 127
  linkLocal := a / 2 ^ 16 = 169 * 2 ^ 8 + 254
  unspecified := a = 0
  multicast := a / 2 ^ 28 = 14
  reserved := a / 2 ^ 28 = 15
  isPrivate := pol.privateRange a

def bad (ip : Traits) : Bool :=
  if ip.loopback then !pol.allowLoopback
  else if ip.linkLocal || ip.unspecified || ip.multicast || ip.reserved then true
  else pol.blockPrivate && ip.isPrivate

/-- `host.strip("[]")`. -/
def stripBrackets (host : List Char) : List Char :=
  let bracket := fun c => c = '[' || c = ']'
  ((host.dropWhile bracket).reverse.dropWhile bracket).reverse

/-- An IPv6 literal has colons. -/
def ipv6Address (host : List Char) : Option Traits := if ':' ∈ host then pol.ipv6 host else none

/-- `ipaddress.ip_address`. -/
def ipAddress (host : List Char) : Option Traits :=
  match Inet.dottedQuad host with
  | some a => some (ipv4 pol a)
  | none => ipv6Address pol host

def localhosts : List (List Char) := ["localhost".toList, "localhost.localdomain".toList]

/-- A name but for the dot that it may end in. -/
def dropDot (host : List Char) : List Char :=
  if host.getLast? = some '.' then host.dropLast else host

/-- The addresses of a host, and none where it does not resolve. -/
def getaddrinfo (host : List Char) : List Traits :=
  match Inet.aton (dropDot host) with
  | some a => [ipv4 pol a]
  | none => pol.lookup (dropDot host)

/-- Whether private ranges are blocked and the host resolves to an address that is refused. -/
def resolvesBad (host : List Char) : Bool :=
  pol.blockPrivate && (getaddrinfo pol host).any (bad pol)

/-- `_host_is_forbidden`. -/
local instance lawfulBEqHost : LawfulBEq (List Char) := inferInstance

def hostIsForbidden (host : List Char) : Bool :=
  match ipAddress pol (stripBrackets host) with
  | some ip => bad pol ip
  | none => if host ∈ localhosts then !pol.allowLoopback else resolvesBad pol host

/-! ### The Judge -/

def schemeChar (c : Char) : Bool := c.isAlphanum || c = '+' || c = '-' || c = '.'

/-- What comes after the scheme and its colon, if there is a scheme. -/
def afterScheme (url : List Char) : List Char :=
  let scheme := url.takeWhile (· ≠ ':')
  if ':' ∈ url ∧ scheme.all schemeChar ∧ (scheme.head?.any Char.isAlpha) then
    url.drop (scheme.length + 1)
  else url

/-- After the last `@`. -/
def afterUser (netloc : List Char) : List Char := (netloc.reverse.takeWhile (· ≠ '@')).reverse

/-- A bracketed host, or what precedes the port. -/
def splitHostname (hostinfo : List Char) : List Char :=
  if '[' ∈ hostinfo then ((hostinfo.dropWhile (· ≠ '[')).drop 1).takeWhile (· ≠ ']')
  else hostinfo.takeWhile (· ≠ ':')

/-- `urlsplit(url).hostname`. Leading blanks and control characters go, and every tab and line
break. -/
def urlsplitHostname (url : String) : Option String :=
  let url := (url.toList.dropWhile (· ≤ ' ')).filter (· ∉ ['\t', '\r', '\n'])
  match afterScheme url with
  | '/' :: '/' :: rest =>
    let netloc := rest.takeWhile (· ∉ ['/', '?', '#'])
    let host := splitHostname (afterUser netloc)
    if pol.netlocValid netloc ∧ host ≠ [] then some (String.ofList host) else none
  | _ => none

def gitPolicy : GitPolicy where
  hostname := urlsplitHostname pol
  hostIsForbidden host := hostIsForbidden pol host.toList
  allowedHosts := pol.allowedHosts

/-! ### Git -/

/-- A bracketed host, or what precedes the port, as git reads an authority. -/
def authorityHost : List Char → List Char
  | '[' :: cs => cs.takeWhile (· ≠ ']')
  | cs => cs.takeWhile (· ≠ ':')

/-- The host git contacts: of `ssh://[user@]host[:port]/path`, `git://host[:port]/path` and
`http[s]://[user@]host[:port]/path`, whose authority a query or a fragment ends as well, and of
`[user@]host:path`, where no slash precedes the colon. -/
def gitHost (url : List Char) : Option (List Char) :=
  match afterFirst "://".toList url with
  | some rest =>
    let scheme := url.take (url.length - 3 - rest.length)
    if scheme = "ssh".toList then some (authorityHost (afterUser (rest.takeWhile (· ≠ '/'))))
    else if scheme = "git".toList then some (authorityHost (rest.takeWhile (· ≠ '/')))
    else if scheme = "http".toList ∨ scheme = "https".toList then
      some (authorityHost (afterUser (rest.takeWhile (· ∉ ['/', '?', '#']))))
    else none
  | none =>
    let head := url.takeWhile (· ≠ ':')
    if ':' ∈ url ∧ '/' ∉ head then some (afterUser head) else none

/-- The host in lower case, as names are compared. -/
def contacts (url : String) : Option (List Char) :=
  (gitHost url.toList).map fun host => (String.ofList host).toLower.toList

/-- The policy on the destination that a host stands for: the address it spells, or its name. -/
def refused (host : List Char) : Bool :=
  match ipv6Address pol (stripBrackets host) with
  | some ip => bad pol ip
  | none =>
    match Inet.aton (stripBrackets (dropDot host)) with
    | some a => bad pol (ipv4 pol a)
    | none => if dropDot host ∈ localhosts then !pol.allowLoopback else resolvesBad pol host

/-- No URL that passes leads git to a destination that the policy refuses. -/
def Safe (url : String) : Prop :=
  isSafeGitUrl (gitPolicy pol) url = true → ∀ host, contacts url = some host →
    refused pol host = false

/-! ### Where the Two Differ -/

/-- A numeric host that is no dotted quad, or a local name with a dot after it: the judge takes it
for a name that it does not know. -/
def Respelled (host : List Char) : Prop :=
  ipAddress pol (stripBrackets host) = none ∧ host ∉ localhosts ∧
    ((Inet.aton (stripBrackets (dropDot host))).isSome = true ∨ dropDot host ∈ localhosts)

/-- What a URL has to meet besides the policy on its host. -/
structure Admitted (url host : String) : Prop where
  nonempty : url ≠ ""
  noOption : startsWith "-" url = false
  noHelper : contains "::" url = false
  scheme : ((beforeFirst "://" url).all fun scheme => scheme.toLower ∈ gitUrlSchemes) = true
  allowed : pol.allowedHosts = [] ∨ host ∈ pol.allowedHosts

/-- The destination is refused, and the judge does not see it: git contacts the very host it reads,
in another spelling that it does not resolve to a bad address, or it reads another host, which it
lets pass. -/
def Unseen (host contacted : List Char) : Prop :=
  refused pol contacted = true ∧
    if host = contacted then Respelled pol host ∧ resolvesBad pol host = false
    else hostIsForbidden pol host = false

end Policy

section Agreement
variable {pol : Policy} {host : List Char} {ip : Traits}

lemma stripBrackets_dot (cs : List Char) :
    ∃ ds, stripBrackets (cs ++ ['.']) = ds ++ ['.'] := by
  have hleft : ∀ cs : List Char, ∃ ds,
      (cs ++ ['.']).dropWhile (fun c => c = '[' || c = ']') = ds ++ ['.'] := by
    intro cs
    induction cs with
    | nil => exact ⟨[], by decide⟩
    | cons c cs ih =>
      rw [List.cons_append, List.dropWhile_cons]
      split
      · exact ih
      · exact ⟨c :: cs, rfl⟩
  obtain ⟨ds, hds⟩ := hleft cs
  refine ⟨ds, ?_⟩
  unfold stripBrackets
  dsimp only
  rw [hds, List.reverse_append]
  simp

lemma dropDot_of_dottedQuad {a : ℕ} (h : Inet.dottedQuad (stripBrackets host) = some a) :
    dropDot host = host := by
  unfold dropDot
  refine if_neg fun hlast => ?_
  obtain ⟨cs, rfl⟩ := List.getLast?_eq_some_iff.mp hlast
  obtain ⟨ds, hds⟩ := stripBrackets_dot cs
  rw [hds, Inet.not_dottedQuad_dot] at h
  cases h

/-- Of a literal both say the same. -/
lemma refused_of_ipAddress (h : ipAddress pol (stripBrackets host) = some ip) :
    refused pol host = bad pol ip := by
  unfold ipAddress at h
  unfold refused
  cases hquad : Inet.dottedQuad (stripBrackets host) with
  | some a =>
    rw [hquad] at h
    cases h
    rw [ipv6Address, if_neg (Inet.colon_notMem hquad), dropDot_of_dottedQuad hquad,
      Inet.aton_of_dottedQuad hquad]
  | none =>
    rw [hquad] at h
    have h : ipv6Address pol (stripBrackets host) = some ip := h
    rw [h]

lemma ipv6Address_of_ipAddress (h : ipAddress pol (stripBrackets host) = none) :
    ipv6Address pol (stripBrackets host) = none := by
  unfold ipAddress at h
  split at h
  · cases h
  · exact h

lemma refused_of_localhosts (h : host ∈ localhosts)
    (hip : ipAddress pol (stripBrackets host) = none) :
    refused pol host = !pol.allowLoopback := by
  unfold refused
  rw [ipv6Address_of_ipAddress hip]
  have hname : Inet.aton (stripBrackets (dropDot host)) = none ∧ dropDot host ∈ localhosts := by
    revert host
    unfold localhosts
    simp only [List.mem_cons, List.not_mem_nil, or_false]
    rintro host (rfl | rfl) - <;> decide +kernel
  rw [hname.1]
  exact if_pos hname.2

/-- Where both read one host, it is the spelling that lets it pass. -/
lemma unseen_iff : hostIsForbidden pol host = false ∧ refused pol host = true ↔
    refused pol host = true ∧ Respelled pol host ∧ resolvesBad pol host = false := by
  constructor
  · rintro ⟨hpass, hbad⟩
    unfold hostIsForbidden at hpass
    cases hip : ipAddress pol (stripBrackets host) with
    | some ip =>
      rw [hip] at hpass
      rw [refused_of_ipAddress hip] at hbad
      exact absurd (hbad.symm.trans hpass) (by decide)
    | none =>
      rw [hip] at hpass
      dsimp only at hpass
      by_cases hlocal : host ∈ localhosts
      · rw [if_pos hlocal] at hpass
        rw [refused_of_localhosts hlocal hip] at hbad
        exact absurd (hbad.symm.trans hpass) (by decide)
      · rw [if_neg hlocal] at hpass
        refine ⟨hbad, ⟨hip, hlocal, ?_⟩, hpass⟩
        unfold refused at hbad
        rw [ipv6Address_of_ipAddress hip] at hbad
        dsimp only at hbad
        cases haton : Inet.aton (stripBrackets (dropDot host)) with
        | some a => exact .inl rfl
        | none =>
          rw [haton] at hbad
          dsimp only at hbad
          split at hbad
          · exact .inr ‹_›
          · exact absurd (hbad.symm.trans hpass) (by decide)
  · rintro ⟨hbad, ⟨hip, hlocal, -⟩, hpass⟩
    refine ⟨?_, hbad⟩
    unfold hostIsForbidden
    rw [hip]
    exact (if_neg hlocal).trans hpass

end Agreement

/-- The defaults. -/
def defaults : Policy where
  allowLoopback := false
  blockPrivate := false
  allowedHosts := []
  privateRange _ := false
  ipv6 _ := none
  lookup _ := []
  netlocValid _ := true

lemma not_safe {pol : Policy} {url : String} (hpass : isSafeGitUrl (gitPolicy pol) url = true)
    (hbad : (contacts url).any (refused pol) = true) : ¬Safe pol url := by
  intro hsafe
  obtain ⟨host, hhost, hbad⟩ := (Option.any_eq_true _ _).mp hbad
  exact absurd (hbad.symm.trans (hsafe hpass host hhost)) (by decide)

example : isSafeGitUrl (gitPolicy defaults) "http://169.254.169.254/latest/meta-data/" = false := by
  decide +kernel

end Treeweft.GitHost
