import Syndeo.Http.Text
import Syndeo.Net.Reach

/-!
# How a page is reached

The address field of the app says of a page whether it came through Syndeo's proxy,
and of one that it calls direct or local it says that Syndeo does not cache it. It
goes by a table of its own, and what the proxy keeps goes by the one of
`Syndeo.Reach`. `Syndeo.not_public_of_route` is that the second has whatever the
first one calls local.
-/

namespace Syndeo

open Reach

/-- `url::Host`, as the URL parser leaves it. -/
inductive Host
  | domain (name : String)
  | ipv4 (ip : Ipv4Addr)
  | ipv6 (ip : Ipv6Addr)
  deriving DecidableEq

namespace App

/-- What `route` looks at of a `url::Url`. -/
structure Url where
  scheme : String
  host : Option Host
  deriving DecidableEq

/-- `Route`. -/
inductive Route
  | syndeo
  | direct
  | localNetwork
  deriving DecidableEq

/-- `DIRECT_V4`. -/
def directV4 : Block 32 := (v4 127 0 0 0, 8)

/-- `DIRECT_V6`. -/
def directV6 : Block 128 := (v6 0 0 0 0 0 0 0 1, 128)

/-- `LOCAL_V4`. -/
def localV4 : List (Block 32) :=
  [(v4 10 0 0 0, 8), (v4 172 16 0 0, 12), (v4 192 168 0 0, 16), (v4 169 254 0 0, 16),
    (v4 100 64 0 0, 10)]

/-- `LOCAL_V6`. -/
def localV6 : List (Block 128) := [(v6 0xfc00 0 0 0 0 0 0 0, 7), (v6 0xfe80 0 0 0 0 0 0 0, 10)]

/-- IPv4 carried in IPv6 is that IPv4 address. -/
def unmapped : Host → Host
  | .ipv6 ip =>
    match toIpv4Mapped ip with
    | some carried => .ipv4 carried
    | none => .ipv6 ip
  | host => host

/-- The route of a host. -/
def hostRoute : Host → Route
  | .domain name => if name = "localhost" ∨ name = "localhost." then .direct else .syndeo
  | .ipv4 ip =>
    if directV4.contains ip then .direct
    else if localV4.any fun b => b.contains ip then .localNetwork
    else .syndeo
  | .ipv6 ip =>
    if directV6.contains ip then .direct
    else if localV6.any fun b => b.contains ip then .localNetwork
    else .syndeo

/-- `route`. -/
def route (url : Url) : Option Route :=
  if url.scheme = "http" ∨ url.scheme = "https" then
    url.host.map fun host => hostRoute (unmapped host)
  else none

/-- `route_of`: of an address as text, which `Url::parse` reads. -/
def routeOf (parse : String → Option Url) (address : String) : Option Route :=
  (parse address).bind route

/-- The address a host is, if it is one. -/
def address : Host → Option IpAddr
  | .domain _ => none
  | .ipv4 ip => some (.v4 ip)
  | .ipv6 ip => some (.v6 ip)

/-- What the address field calls direct or local. -/
def Route.NotCached (r : Route) : Prop := r = .direct ∨ r = .localNetwork

variable {ip : IpAddr} {host : Host}

/-! ### One table in the other -/

theorem covers_v4 : Block.Covers notPublicV4 (directV4 :: localV4) := by decide +kernel

theorem apart_translatedV6 : Block.Apart translatedV6 (directV6 :: localV6) := by decide +kernel

theorem apart_globalV6 : Block.Apart globalV6 (directV6 :: localV6) := by decide +kernel

/-- A block of its own, and a list: what neither holds goes through Syndeo. -/
theorem mem_of_notCached {w : ℕ} {direct : Block w} {others : List (Block w)} {ip : BitVec w}
    (h : (if direct.contains ip then Route.direct
      else if others.any fun b => b.contains ip then .localNetwork else .syndeo).NotCached) :
    ((direct :: others).any fun b => b.contains ip) = true := by
  rw [List.any_cons, Bool.or_eq_true]
  split_ifs at h with hdirect hlocal
  · exact Or.inl hdirect
  · exact Or.inr hlocal
  · exact absurd h (by simp [Route.NotCached])

theorem not_public_v4 {ip : Ipv4Addr} (h : (hostRoute (.ipv4 ip)).NotCached) :
    isPublicV4 ip = false := by
  rw [isPublicV4, covers_v4.any (mem_of_notCached h)]
  rfl

theorem not_public_v6 {ip : Ipv6Addr} (hmapped : toIpv4Mapped ip = none)
    (h : (hostRoute (.ipv6 ip)).NotCached) : isPublicV6 ip = false := by
  have hmem := mem_of_notCached h
  have hnot : mappedV6.contains ip = false := by
    by_contra hin
    rw [Bool.not_eq_false, contains_mappedV6_iff, hmapped] at hin
    exact nomatch hin
  rw [isPublicV6, hnot, apart_translatedV6.not_contains hmem, apart_globalV6.not_contains hmem]
  rfl

/-- **What the app says is not cached**, of a host that is an address, comes from an
address that is not public. -/
theorem not_public_of_hostRoute (hip : address host = some ip)
    (h : (hostRoute (unmapped host)).NotCached) : isPublic ip = false := by
  cases host with
  | domain name => exact nomatch hip
  | ipv4 ip =>
    obtain rfl := Option.some.inj hip
    exact not_public_v4 h
  | ipv6 ip =>
    obtain rfl := Option.some.inj hip
    rw [unmapped] at h
    rcases hmapped : toIpv4Mapped ip with _ | carried
    · rw [hmapped] at h
      exact not_public_v6 hmapped h
    · rw [hmapped] at h
      exact (isPublicV6_of_mapped hmapped).trans (not_public_v4 h)

/-! ### What is typed -/

/-- What typing into the address field leads to. -/
inductive Typed
  | load (url : Url)
  | search (url : Url)
  | empty
  | refused (reason : String)
  deriving DecidableEq

/-- `ZONED`. -/
def zoned : String :=
  "Syndeo can't open IPv6 link-local addresses that name a network interface, such as " ++
    "fe80::1%en0, yet."

/-- `OPAQUE`. -/
def opaqueSchemes : List String := ["about", "javascript", "data", "file", "mailto", "blob"]

/-- `has_zone`. -/
def hasZone (address : List Char) : Bool :=
  let rest := match Text.splitOnceAt "://".toList address with
    | some (_, rest) => rest
    | none => address
  match Text.splitOnce '[' (rest.takeWhile fun c => c ∉ ['/', '?', '#']) with
  | none => false
  | some (_, host) =>
    match Text.splitOnce ']' host with
    | some (host, _) => host.contains '%'
    | none => host.contains '%'

/-- `explicit_scheme`. -/
def explicitScheme (text : List Char) : Option String :=
  (Text.splitOnce ':' text).bind fun (scheme, rest) =>
    let valid := scheme.head?.any Char.isAlpha &&
      scheme.all fun c => c.isAlphanum || c ∈ ['+', '-', '.']
    let lower := String.ofList (scheme.map Text.lowerChar)
    if valid && ("//".toList.isPrefixOf rest || lower ∈ opaqueSchemes) then some lower else none

/-- `host_str` is there and not empty. -/
def Url.namesHost (url : Url) : Bool :=
  match url.host with
  | some (.domain name) => name != ""
  | some _ => true
  | none => false

/-- `looks_like_a_host`. -/
def looksLikeAHost : Host → Bool
  | .domain name => name == "localhost" || (name.contains '.' && name.toList.getLast? != some '.')
  | _ => true

/-- `other_scheme`. -/
def otherScheme (scheme : String) : String :=
  "Syndeo opens http and https addresses, not " ++ scheme ++ ": ones."

/-- `interpret`: `search` is the page of the chosen engine, and none when search is
off. -/
def interpret (parse : String → Option Url) (search : String → Option Url) (input : String) :
    Typed :=
  let text := Text.trim input
  if text = "" then .empty
  else
    match explicitScheme text.toList with
    | some scheme =>
      if scheme = "http" ∨ scheme = "https" then
        if hasZone text.toList then .refused zoned
        else
          match parse text with
          | some url =>
            if url.namesHost then .load url
            else .refused (text ++ " is not a web address Syndeo can open.")
          | none => .refused (text ++ " is not a web address Syndeo can open.")
      else if scheme = "about" ∧ Text.eqIgnoreAsciiCase text "about:blank" then
        .load ⟨"about", none⟩
      else .refused (otherScheme scheme)
    | none =>
      if hasZone text.toList then .refused zoned
      else
        -- words are no host, and a host is opened over https
        let typed := if text.toList.any Text.isWhitespace then none
          else (parse ("https://" ++ text)).filter fun url => url.host.any looksLikeAHost
        match typed with
        | some url => .load url
        | none =>
          match search text with
          | some url => .search url
          | none => .refused (text ++ " is not a web address. Search is off, so Syndeo does not " ++
              "search, and what you typed was not sent anywhere. To search from here, choose a " ++
              "search engine in Settings.")

/-- With search off, nothing that is typed is sent to a search engine. -/
theorem interpret_off_ne_search (parse : String → Option Url) (input : String) (url : Url) :
    interpret parse (fun _ => none) input ≠ .search url := by
  intro h
  dsimp only [interpret] at h
  repeat' split at h
  all_goals exact Typed.noConfusion h

end App

open App in
/-- **What the app says is not cached is not public**: a page whose host is an IP
literal, however it is written, and which the address field calls direct or local. -/
theorem not_public_of_route (parse : String → Option App.Url) (text : String) {url : App.Url}
    {ip : IpAddr} {r : Route} (hparse : parse text = some url)
    (hip : url.host.bind address = some ip) (hroute : routeOf parse text = some r)
    (hr : r = .direct ∨ r = .localNetwork) : isPublic ip = false := by
  obtain ⟨host, hhost, haddress⟩ := Option.bind_eq_some_iff.mp hip
  rw [routeOf, hparse, Option.bind_some, route] at hroute
  split_ifs at hroute
  rw [hhost, Option.map_some] at hroute
  rw [← Option.some.inj hroute] at hr
  exact not_public_of_hostRoute haddress hr

/-- A mapped address of the local network, with a parser that reads it. -/
theorem not_public_of_route_mapped :
    isPublic (.v6 (v6 0 0 0 0 0 0xffff 0xc0a8 0x0001)) = false :=
  not_public_of_route
    (fun s => if s = "http://[::ffff:192.168.0.1]/" then
      some ⟨"http", some (.ipv6 (v6 0 0 0 0 0 0xffff 0xc0a8 0x0001))⟩ else none)
    "http://[::ffff:192.168.0.1]/" rfl rfl (by decide +kernel) (Or.inr rfl)

end Syndeo
