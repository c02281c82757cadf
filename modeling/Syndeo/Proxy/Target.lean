import Syndeo.Http.HeaderMap
import Syndeo.Http.Uri

/-!
# Where a request inside a tunnel goes

A tunnel is opened by a CONNECT that names a host and a port, and what it carries
says which scheme it is. The origin of the three is written as text,
`Syndeo.Proxy.tunnelOrigin`, and the URL of a request inside the tunnel is that
text with the request's path behind it, `Syndeo.Proxy.targetUrl`. The URL is read
again where the request is sent.

Read again, the origin ends where the path begins, so everything depends on the
first character of the path. A path that begins with `/` or `?` ends the
authority there. The asterisk, which is the whole path of a request about the
server itself, does not: it becomes part of the host, or spoils the port.
-/

namespace Syndeo.Proxy

open Syndeo.Text

/-- What a tunnel turned out to carry. -/
inductive Scheme
  | https
  | http
  deriving DecidableEq, Repr

namespace Scheme

def text : Scheme → List Char
  | https => "https".toList
  | http => "http".toList

def defaultPort : Scheme → ℕ
  | https => 443
  | http => 80

end Scheme

/-- The port an origin is written with, unless it is the scheme's own. -/
def portSuffix (scheme : Scheme) (port : ℕ) : List Char :=
  if port = scheme.defaultPort then [] else ':' :: (toString port).toList

/-- `tunnel_origin`. -/
def tunnelOrigin (scheme : Scheme) (host : List Char) (port : ℕ) : List Char :=
  scheme.text ++ ("://".toList ++ (host ++ portSuffix scheme port))

/-- `eq_ignore_ascii_case`, of two texts that are there. -/
def sameText : Option (List Char) → Option (List Char) → Bool
  | some a, some b => a.map lowerChar == b.map lowerChar
  | _, _ => false

/-- The port of a URI after defaults. -/
def effectivePort (u : Uri) : Option ℕ :=
  u.port.or (if sameText u.scheme (some "https".toList) then some 443
    else if sameText u.scheme (some "http".toList) then some 80 else none)

section

variable (accepts : List Char → Bool)

/-- `same_origin`. -/
def sameOrigin (uri : Uri) (origin : List Char) : Bool :=
  match Uri.parse accepts origin with
  | none => false
  | some origin =>
    sameText uri.scheme origin.scheme && sameText uri.host origin.host &&
      (effectivePort uri).isSome && effectivePort uri == effectivePort origin

/-- `Uri::to_string`. -/
def showUri (uri : Uri) : List Char :=
  let path := uri.pathAndQuery.takeWhile fun c => c != '?'
  (uri.scheme.elim [] fun s => s ++ "://".toList) ++ uri.authority.getD [] ++
    (if path = [] then ['/'] else path) ++ uri.pathAndQuery.dropWhile fun c => c != '?'

/-- `target_url`. -/
def targetUrl (uri : Uri) (headers : HeaderMap) (origin : Option (List Char)) :
    Except String (List Char) :=
  match origin with
  | some origin =>
    if uri.authority.isSome && !sameOrigin accepts uri origin then
      .error "a request inside a tunnel may only be for the tunnel's own origin"
    else .ok (origin ++ uri.pathText)
  | none =>
    if uri.scheme.isSome && uri.authority.isSome then .ok (showUri uri)
    else
      match headers.getStr header.host with
      | some host => .ok ("http://".toList ++ host.toList ++ uri.pathText)
      | none => .error "could not determine the target url"

end

/-! ### Tunnels and what comes through them -/

/-- **A tunnel**: the authority of the CONNECT, which names a port, and the scheme
of what is carried. -/
structure Tunnel where
  scheme : Scheme
  authority : List Char
  port : ℕ
  ends : ∀ c ∈ authority, Uri.endsAuthority c = false
  port_eq : Uri.portOf authority = some port

namespace Tunnel

def host (t : Tunnel) : List Char := Uri.hostOf t.authority

def origin (t : Tunnel) : List Char := tunnelOrigin t.scheme t.host t.port

end Tunnel

/-- **A request target**, in one of the forms there are: its path and query are
empty, begin with a slash or are a query alone, or are the asterisk. -/
structure RequestUri extends Uri where
  form : pathAndQuery = [] ∨ pathAndQuery.head? = some '/' ∨ pathAndQuery.head? = some '?' ∨
    pathAndQuery = ['*']

/-- **The URL is the tunnel's**: wherever it is read, it has the tunnel's scheme,
host and port. -/
def Reaches (accepts : List Char → Bool) (t : Tunnel) (r : Except String (List Char)) : Prop :=
  ∀ url, r = .ok url → ∀ u, Uri.parse accepts url = some u →
    u.scheme = some t.scheme.text ∧ sameText u.host (some t.host) = true ∧
      effectivePort u = some t.port

/-- **The asterisk runs into the origin**: it is the path of a request the tunnel
does not refuse, the URL can be read, and the origin ends in a name or a port. -/
def AsteriskEscapes (accepts : List Char → Bool) (t : Tunnel) (uri : Uri) : Prop :=
  uri.pathAndQuery = ['*'] ∧ (uri.authority = none ∨ sameOrigin accepts uri t.origin = true) ∧
    accepts (t.origin ++ ['*']) = true ∧
    (t.port ≠ t.scheme.defaultPort ∨ t.host.head? ≠ some '[')

section Tunnels

variable {accepts : List Char → Bool} {t : Tunnel} {u : Uri}

theorem Tunnel.isHost (t : Tunnel) : Uri.IsHost t.host := Uri.isHost_hostOf t.ends

theorem colon_not_mem_scheme (s : Scheme) : ':' ∉ s.text := by
  cases s with
  | https => decide
  | http => decide

theorem plain_of_isDigit {c : Char} (h : c.isDigit = true) :
    c ≠ '@' ∧ Uri.endsAuthority c = false := by
  rw [isDigit_iff] at h
  refine ⟨?_, ?_⟩
  · rintro rfl
    exact absurd h (by decide)
  · rw [Uri.endsAuthority, Bool.or_eq_false_iff, Bool.or_eq_false_iff]
    refine ⟨⟨?_, ?_⟩, ?_⟩
    all_goals
      rw [beq_eq_false_iff_ne]
      rintro rfl
      exact absurd h (by decide)

theorem plain_portSuffix {scheme : Scheme} {port : ℕ} :
    ∀ c ∈ portSuffix scheme port, c ≠ '@' ∧ Uri.endsAuthority c = false := by
  intro c hc
  rw [portSuffix] at hc
  split at hc
  · exact nomatch hc
  · rcases List.mem_cons.mp hc with rfl | hc
    · decide
    · exact plain_of_isDigit ((toList_toString_nat port).2 c hc)

theorem head_portSuffix {scheme : Scheme} {port : ℕ} :
    ∀ c ∈ (portSuffix scheme port).head?, c = ':' := by
  intro c hc
  rw [portSuffix] at hc
  split at hc
  · exact nomatch hc
  · exact (Option.some.inj hc).symm

/-- What the origin is written with is an authority. -/
theorem Tunnel.ends_authority (t : Tunnel) :
    ∀ c ∈ t.host ++ portSuffix t.scheme t.port, Uri.endsAuthority c = false := by
  intro c hc
  rcases List.mem_append.mp hc with hc | hc
  · exact t.isHost.not_endsAuthority c hc
  · exact (plain_portSuffix c hc).2

/-- The port after defaults, of a URI with a scheme of ours. -/
theorem effectivePort_eq {scheme : Scheme} (h : u.scheme = some scheme.text) :
    effectivePort u = some (u.port.getD scheme.defaultPort) := by
  rw [effectivePort, h]
  cases scheme with
  | https => cases u.port <;> rfl
  | http => cases u.port <;> rfl

/-- **The origin, read again**, has the tunnel's host and its port. -/
theorem Tunnel.reads (h : u.scheme = some t.scheme.text)
    (ha : u.authority = some (t.host ++ portSuffix t.scheme t.port)) :
    u.host = some t.host ∧ effectivePort u = some t.port := by
  have hhost : u.host = some t.host := by
    rw [Uri.host, ha, Option.map_some,
      Uri.hostOf_append t.isHost (fun hm => (plain_portSuffix _ hm).1 rfl) head_portSuffix]
  refine ⟨hhost, ?_⟩
  rw [effectivePort_eq h, Uri.port, ha, Option.bind_some, portSuffix]
  split
  · rename_i hport
    rw [List.append_nil, t.isHost.portOf, Option.getD_none, hport]
  · rw [Uri.portOf_append (Uri.portOf_lt t.port_eq), Option.getD_some]

theorem sameText_self (a : List Char) : sameText (some a) (some a) = true := beq_self_eq_true _

/-- **A path of its own ends the authority.** -/
theorem reaches_of_path {path : List Char} (h : ∀ c ∈ path.head?, Uri.endsAuthority c = true) :
    Reaches accepts t (.ok (t.origin ++ path)) := by
  rintro _ ⟨⟩ u hu
  obtain ⟨hscheme, hauthority⟩ := Uri.parse_append (colon_not_mem_scheme t.scheme) t.ends_authority h
    (by simp [Tunnel.origin, tunnelOrigin]) hu
  obtain ⟨hhost, hport⟩ := Tunnel.reads hscheme hauthority
  rw [hhost]
  exact ⟨hscheme, sameText_self _, hport⟩

/-- The asterisk ends up in the authority. -/
theorem asterisk_parse (h : Uri.parse accepts (t.origin ++ ['*']) = some u) :
    u.scheme = some t.scheme.text ∧
      u.authority = some (t.host ++ portSuffix t.scheme t.port ++ ['*']) := by
  have hends : ∀ c ∈ t.host ++ portSuffix t.scheme t.port ++ ['*'], Uri.endsAuthority c = false := by
    intro c hc
    rcases List.mem_append.mp hc with hc | hc
    · exact t.ends_authority c hc
    · obtain rfl := List.mem_singleton.mp hc
      decide
  have hnone : ∀ c ∈ ([] : List Char).head?, Uri.endsAuthority c = true := nofun
  exact Uri.parse_append (colon_not_mem_scheme t.scheme) hends hnone
    (by simp [Tunnel.origin, tunnelOrigin]) h

/-- Behind a name it is one more letter of it; behind a bracket it is not looked at. -/
theorem sameText_asterisk {host : List Char} (h : Uri.IsHost host) :
    sameText (some (Uri.hostOf (host ++ ['*']))) (some host) = true ↔ host.head? = some '[' := by
  cases h with
  | @address inner hat hclose hends =>
    have hhost : Uri.hostOf ('[' :: inner ++ [']'] ++ ['*']) = '[' :: inner ++ [']'] := by
      rw [Uri.hostOf_of_at_not_mem (by simp [hat])]
      exact Uri.hostOf_address hclose
    rw [hhost]
    exact ⟨fun _ => rfl, fun _ => sameText_self _⟩
  | name hat hcolon hopen hends =>
    have hname : Uri.IsHost (host ++ ['*']) := by
      refine .name (by simp [hat]) (by simp [hcolon]) ?_ fun c hc => ?_
      · rcases host with _ | ⟨c, host⟩
        · decide
        · exact hopen
      · rcases List.mem_append.mp hc with hc | hc
        · exact hends c hc
        · obtain rfl := List.mem_singleton.mp hc
          decide
    have hhost : Uri.hostOf (host ++ ['*']) = host ++ ['*'] := by
      have happend : Uri.hostOf (host ++ ['*'] ++ []) = host ++ ['*'] :=
        Uri.hostOf_append hname nofun nofun
      rwa [List.append_nil] at happend
    rw [hhost]
    refine ⟨fun hsame => ?_, fun hhead => absurd hhead hopen⟩
    have hlength := congrArg List.length (eq_of_beq hsame)
    simp at hlength

/-- **When it does no harm**: the origin ends in a bracketed address. -/
theorem asterisk_reaches_iff (h : Uri.parse accepts (t.origin ++ ['*']) = some u) :
    (sameText u.host (some t.host) = true ∧ effectivePort u = some t.port) ↔
      t.port = t.scheme.defaultPort ∧ t.host.head? = some '[' := by
  obtain ⟨hscheme, hauthority⟩ := asterisk_parse h
  have hnone : u.port = none := by
    rw [Uri.port, hauthority, Option.bind_some]
    exact Uri.portOf_of_getLast (List.getLast?_append_of_ne_nil _ (List.cons_ne_nil _ _))
      (by decide) (by decide) (by decide)
  have hport : effectivePort u = some t.port ↔ t.port = t.scheme.defaultPort := by
    rw [effectivePort_eq hscheme, hnone, Option.getD_none, Option.some.injEq]
    exact eq_comm
  rw [hport, and_comm]
  refine and_congr_right fun hdefault => ?_
  rw [portSuffix, if_pos hdefault, List.append_nil] at hauthority
  rw [Uri.host, hauthority, Option.map_some]
  exact sameText_asterisk t.isHost

end Tunnels

/-- The asterisk behind an origin: where it can be read, it names the tunnel's host
and port only behind a bracketed address. -/
theorem reaches_asterisk_iff {accepts : List Char → Bool} {t : Tunnel} :
    Reaches accepts t (.ok (t.origin ++ ['*'])) ↔
      (accepts (t.origin ++ ['*']) = true →
        t.port = t.scheme.defaultPort ∧ t.host.head? = some '[') := by
  constructor
  · intro h haccepts
    obtain ⟨u, hu⟩ : ∃ u, Uri.parse accepts (t.origin ++ ['*']) = some u := by
      rw [Tunnel.origin, tunnelOrigin, List.append_assoc, List.append_assoc] at haccepts ⊢
      exact ⟨_, Uri.parse_isSome (colon_not_mem_scheme t.scheme) haccepts⟩
    exact (asterisk_reaches_iff hu).mp (h _ rfl u hu).2
  · rintro h _ ⟨⟩ u hu
    have haccepts : accepts (t.origin ++ ['*']) = true := by
      rw [Uri.parse] at hu
      split at hu
      · exact (Option.ite_none_right_eq_some.mp hu).1
      · cases hu
    exact ⟨(asterisk_parse hu).1, (asterisk_reaches_iff hu).mpr (h haccepts)⟩

/-- Every other path of a request target begins where an authority ends. -/
theorem RequestUri.head_pathText (uri : RequestUri) (h : uri.pathAndQuery ≠ ['*']) :
    ∀ c ∈ uri.toUri.pathText.head?, Uri.endsAuthority c = true := by
  intro c hc
  rw [Uri.pathText] at hc
  split at hc
  · obtain rfl := Option.some.inj hc
    decide
  · rename_i hne
    rcases uri.form with hform | hform | hform | hform
    · exact absurd hform hne
    · obtain rfl := Option.some.inj (hform.symm.trans hc)
      decide
    · obtain rfl := Option.some.inj (hform.symm.trans hc)
      decide
    · exact absurd hform h

/-- **When a tunnel reaches its origin and nothing else**: for every tunnel, every
request that comes through it and whatever its fields are, `target_url` refuses it or
gives a URL with the tunnel's scheme, host and port, unless the asterisk of a request
that is not refused runs into the origin. -/
theorem tunnel_reaches_iff (accepts : List Char → Bool) (t : Tunnel) (uri : RequestUri)
    (headers : HeaderMap) :
    Reaches accepts t (targetUrl accepts uri.toUri headers (some t.origin)) ↔
      ¬AsteriskEscapes accepts t uri.toUri := by
  rw [targetUrl]
  by_cases hrefused : (uri.authority.isSome && !sameOrigin accepts uri.toUri t.origin) = true
  · rw [if_pos hrefused]
    refine ⟨fun _ ⟨_, hor, _⟩ => ?_, fun _ url h => nomatch h⟩
    rw [Bool.and_eq_true, Bool.not_eq_true'] at hrefused
    rcases hor with hnone | hsame
    · rw [hnone] at hrefused
      exact nomatch hrefused.1
    · rw [hsame] at hrefused
      exact nomatch hrefused.2
  · rw [if_neg hrefused]
    have hadmitted : uri.authority = none ∨ sameOrigin accepts uri.toUri t.origin = true := by
      rcases ha : uri.authority with _ | a
      · exact Or.inl rfl
      · rw [ha] at hrefused
        exact Or.inr (by simpa using hrefused)
    by_cases hasterisk : uri.pathAndQuery = ['*']
    · rw [Uri.pathText, hasterisk, if_neg (List.cons_ne_nil _ _), reaches_asterisk_iff]
      constructor
      · rintro h ⟨-, -, haccepts, hor⟩
        obtain ⟨hport, hhead⟩ := h haccepts
        exact hor.elim (fun hne => hne hport) fun hne => hne hhead
      · intro h haccepts
        by_contra hne
        exact h ⟨hasterisk, hadmitted, haccepts, not_and_or.mp hne⟩
    · exact ⟨fun _ h => hasterisk h.1, fun _ => reaches_of_path (uri.head_pathText hasterisk)⟩

/-! ### The asterisk -/

/-- A tunnel to a site, over TLS. -/
def siteTunnel : Tunnel where
  scheme := .https
  authority := "a.test:443".toList
  port := 443
  ends := by decide
  port_eq := by decide

/-- `OPTIONS *`. -/
def asterisk : RequestUri where
  scheme := none
  authority := none
  pathAndQuery := ['*']
  form := by decide

/-- **A request about the server itself goes to another host.** -/
theorem asterisk_other_host :
    targetUrl (fun _ => true) asterisk.toUri ∅ (some siteTunnel.origin) =
        .ok "https://a.test*".toList ∧
      ¬Reaches (fun _ => true) siteTunnel
        (targetUrl (fun _ => true) asterisk.toUri ∅ (some siteTunnel.origin)) := by
  have hurl : targetUrl (fun _ => true) asterisk.toUri ∅ (some siteTunnel.origin) =
      .ok "https://a.test*".toList := by decide
  refine ⟨hurl, fun h => ?_⟩
  have hhost := (h _ hurl _ (show Uri.parse (fun _ => true) "https://a.test*".toList =
    some (Uri.split "https".toList "a.test*".toList) by decide)).2.1
  exact absurd hhost (by decide)

end Syndeo.Proxy
