import Syndeo.Http.Text
import Mathlib.Data.List.TakeWhile

/-!
# URIs as the `http` crate reads them

An absolute URI is a scheme, an authority and what comes behind it, and the
authority is an optional user, a host and an optional port. The crate cuts the
text at the delimiters and keeps the pieces as they are written: an authority
goes up to the first `/`, `?` or `#`, its host begins behind the last `@`, and
its port is whatever stands behind the last `:`, where that is a number of
sixteen bits.

Which texts it takes at all – which bytes may stand where, and how many – is a
parameter, `accepts`.

Writing a host and a port one after the other and reading the result gives them
back (`Syndeo.Uri.hostOf_append`, `Syndeo.Uri.portOf_append`), and a character
more at the end changes one or the other.
-/

namespace Syndeo.Uri

open Text

/-! ### Reading -/

/-- Where an authority ends. -/
def endsAuthority (c : Char) : Bool := c == '/' || c == '?' || c == '#'

/-- `Authority::host`: behind the last `@`, a bracketed address with its brackets
or what there is before the first `:`. -/
def hostOf (authority : List Char) : List Char :=
  let hostPort := ((rsplitOnce '@' authority).map Prod.snd).getD authority
  if hostPort.head? = some '[' then (hostPort.takeWhile fun c => c != ']') ++ [']']
  else hostPort.takeWhile fun c => c != ':'

/-- `str::parse::<u16>`. -/
def parseU16 (cs : List Char) : Option ℕ := (parseU64 cs).filter (· < 2 ^ 16)

/-- `Authority::port_u16`. -/
def portOf (authority : List Char) : Option ℕ :=
  (rsplitOnce ':' authority).bind fun r => parseU16 r.2

end Uri

/-- **`http::Uri`**: the parts of it there are, as they are written. -/
structure Uri where
  scheme : Option (List Char)
  authority : Option (List Char)
  /-- The path and the query: nothing at all where they are empty. -/
  pathAndQuery : List Char
  deriving DecidableEq

namespace Uri

open Text

/-- `Uri::host`. -/
def host (u : Uri) : Option (List Char) := u.authority.map hostOf

/-- `Uri::port_u16`. -/
def port (u : Uri) : Option ℕ := u.authority.bind portOf

/-- `PathAndQuery::as_str`, which writes an empty path as `/`. -/
def pathText (u : Uri) : List Char := if u.pathAndQuery = [] then ['/'] else u.pathAndQuery

/-- The parts of an absolute URI. A fragment is left out. -/
def split (scheme rest : List Char) : Uri where
  scheme := some scheme
  authority := some (rest.takeWhile fun c => !endsAuthority c)
  pathAndQuery := (rest.dropWhile fun c => !endsAuthority c).takeWhile fun c => c != '#'

/-- `str::parse::<Uri>`, of an absolute URI. -/
def parse (accepts : List Char → Bool) (text : List Char) : Option Uri :=
  match splitOnceAt "://".toList text with
  | some (scheme, rest) => if accepts text then some (split scheme rest) else none
  | none => none

/-! ### Numbers -/

/-- **A number is read as it was written.** -/
theorem parseU16_toString {n : ℕ} (h : n < 2 ^ 16) : parseU16 (toString n).toList = some n := by
  rw [parseU16, parseU64_toString (Nat.lt_trans h (by decide)), Option.filter_some,
    if_pos (by simpa)]

/-- What holds a character that is no digit and no sign is no number. -/
theorem parseU16_of_mem {cs : List Char} {c : Char} (hc : c ∈ cs) (hdigit : c.isDigit = false)
    (hplus : c ≠ '+') : parseU16 cs = none := by
  have hvalue : ∀ (ds : List Char) (acc : ℕ), c ∈ ds → digitsValue acc ds = none := by
    intro ds
    induction ds with
    | nil => exact fun _ h => nomatch h
    | cons d ds ih =>
      intro acc h
      rw [digitsValue]
      rcases List.mem_cons.mp h with rfl | h
      · rw [hdigit]
        rfl
      · split
        · exact ih _ h
        · rfl
  rcases cs with _ | ⟨d, ds⟩
  · exact nomatch hc
  · by_cases hd : d = '+'
    · subst hd
      have hmem : c ∈ ds := (List.mem_cons.mp hc).resolve_left hplus
      rw [parseU16, parseU64_plus, if_neg (List.ne_nil_of_mem hmem), hvalue ds 0 hmem]
      rfl
    · rw [parseU16, parseU64_cons hd, hvalue _ 0 hc]
      rfl

/-! ### A host and a port -/

/-- **What a host looks like**: a bracketed address, or a name without a colon. -/
inductive IsHost : List Char → Prop
  | address {inner : List Char} (hat : '@' ∉ inner) (hclose : ']' ∉ inner)
      (hends : ∀ c ∈ inner, endsAuthority c = false) : IsHost ('[' :: inner ++ [']'])
  | name {name : List Char} (hat : '@' ∉ name) (hcolon : ':' ∉ name) (hopen : name.head? ≠ some '[')
      (hends : ∀ c ∈ name, endsAuthority c = false) : IsHost name

section Host

variable {host authority tail : List Char}

/-- **The host of an authority is a host.** -/
theorem isHost_hostOf (h : ∀ c ∈ authority, endsAuthority c = false) :
    IsHost (hostOf authority) := by
  obtain ⟨hostPort, hpart, hat, hends⟩ : ∃ hostPort,
      ((rsplitOnce '@' authority).map Prod.snd).getD authority = hostPort ∧ '@' ∉ hostPort ∧
        ∀ c ∈ hostPort, endsAuthority c = false := by
    rcases hsplit : rsplitOnce '@' authority with _ | ⟨front, hostPort⟩
    · exact ⟨authority, rfl, not_mem_of_rsplitOnce_eq_none hsplit, h⟩
    · refine ⟨hostPort, rfl, not_mem_of_rsplitOnce hsplit, fun c hc => h c ?_⟩
      rw [eq_append_of_rsplitOnce hsplit]
      exact List.mem_append_right _ (List.mem_cons_of_mem _ hc)
  rw [hostOf]
  simp only [hpart]
  split
  · rename_i hopen
    obtain ⟨inner, rfl⟩ : ∃ inner, hostPort = '[' :: inner := by
      rcases hostPort with _ | ⟨c, inner⟩
      · exact nomatch hopen
      · exact ⟨inner, by rw [Option.some.inj hopen]⟩
    have htake : (('[' :: inner).takeWhile fun c => c != ']') =
        '[' :: inner.takeWhile fun c => c != ']' := by
      rw [List.takeWhile_cons, if_pos (by decide)]
    have hinner : ∀ c ∈ inner.takeWhile fun c => c != ']', c ∈ '[' :: inner := fun c hc =>
      List.mem_cons_of_mem _ ((List.takeWhile_sublist _).subset hc)
    rw [htake]
    refine .address (fun hm => hat (hinner _ hm)) (fun hm => ?_) fun c hc => hends c (hinner c hc)
    exact absurd (List.mem_takeWhile_imp hm) (by decide)
  · rename_i hopen
    have hname : ∀ c ∈ hostPort.takeWhile fun c => c != ':', c ∈ hostPort := fun c hc =>
      (List.takeWhile_sublist _).subset hc
    refine .name (fun hm => hat (hname _ hm)) (fun hm => ?_) (fun hm => hopen ?_)
      fun c hc => hends c (hname c hc)
    · exact absurd (List.mem_takeWhile_imp hm) (by decide)
    · rcases hostPort with _ | ⟨c, cs⟩
      · exact nomatch hm
      · rw [List.takeWhile_cons] at hm
        split at hm
        · exact hm
        · exact nomatch hm

theorem IsHost.at_not_mem (h : IsHost host) : '@' ∉ host := by
  cases h with
  | address hat hclose hends => simp [hat]
  | name hat hcolon hopen hends => exact hat

theorem IsHost.not_endsAuthority (h : IsHost host) : ∀ c ∈ host, endsAuthority c = false := by
  cases h with
  | address hat hclose hends =>
    intro c hc
    simp only [List.cons_append, List.mem_cons, List.mem_append, List.not_mem_nil, or_false] at hc
    rcases hc with rfl | hc | rfl
    · decide
    · exact hends c hc
    · decide
  | name hat hcolon hopen hends => exact hends

/-- A bracketed address ends where its bracket does. -/
theorem hostOf_address {inner : List Char} (hclose : ']' ∉ inner) :
    (if ('[' :: inner ++ [']'] ++ tail).head? = some '[' then
      (('[' :: inner ++ [']'] ++ tail).takeWhile fun c => c != ']') ++ [']']
    else ('[' :: inner ++ [']'] ++ tail).takeWhile fun c => c != ':') = '[' :: inner ++ [']'] := by
  have hall : ∀ c ∈ '[' :: inner, (c != ']') = true := by
    intro c hc
    rcases List.mem_cons.mp hc with rfl | hc
    · decide
    · exact bne_iff_ne.mpr fun he => hclose (he ▸ hc)
  rw [if_pos (by rfl), List.append_assoc, List.takeWhile_append_of_pos hall]
  simp

theorem hostOf_of_at_not_mem (h : '@' ∉ authority) : hostOf authority =
    if authority.head? = some '[' then (authority.takeWhile fun c => c != ']') ++ [']']
    else authority.takeWhile fun c => c != ':' := by
  rw [hostOf, rsplitOnce_of_not_mem h]
  rfl

/-- Nothing, or a colon and more. -/
theorem takeWhile_colon {name : List Char} (hname : ':' ∉ name)
    (htail : ∀ c ∈ tail.head?, c = ':') :
    ((name ++ tail).takeWhile fun c => c != ':') = name := by
  have hall : ∀ c ∈ name, (c != ':') = true := fun c hc => bne_iff_ne.mpr fun he => hname (he ▸ hc)
  rw [List.takeWhile_append_of_pos hall]
  rcases tail with _ | ⟨d, tail⟩
  · exact List.append_nil name
  · obtain rfl := htail d rfl
    rw [List.takeWhile_cons, if_neg (by decide), List.append_nil]

/-- **A host, read again**, with nothing behind it or with a port. -/
theorem hostOf_append (h : IsHost host) (hat : '@' ∉ tail) (htail : ∀ c ∈ tail.head?, c = ':') :
    hostOf (host ++ tail) = host := by
  rw [hostOf_of_at_not_mem (by simp [h.at_not_mem, hat])]
  cases h with
  | @address inner hat' hclose hends => exact hostOf_address hclose
  | name hat' hcolon hopen hends =>
    rw [if_neg, takeWhile_colon hcolon htail]
    rcases host with _ | ⟨c, host⟩
    · rcases tail with _ | ⟨d, tail⟩
      · exact nofun
      · obtain rfl := htail d rfl
        simp
    · exact hopen

/-- A port is a number up to the end. -/
theorem portOf_of_getLast {c : Char} (h : authority.getLast? = some c) (hdigit : c.isDigit = false)
    (hplus : c ≠ '+') (hcolon : c ≠ ':') : portOf authority = none := by
  rw [portOf]
  rcases hsplit : rsplitOnce ':' authority with _ | ⟨front, port⟩
  · rfl
  · have hlast : (':' :: port).getLast? = some c := by
      rw [eq_append_of_rsplitOnce hsplit, List.getLast?_append_of_ne_nil _ (List.cons_ne_nil _ _)] at h
      exact h
    have hmem : c ∈ port := (List.mem_cons.mp (List.mem_of_getLast? hlast)).resolve_left hcolon
    exact parseU16_of_mem hmem hdigit hplus

/-- A host has no port. -/
theorem IsHost.portOf (h : IsHost host) : portOf host = none := by
  cases h with
  | address hat hclose hends =>
    exact portOf_of_getLast (List.getLast?_append_of_ne_nil _ (List.cons_ne_nil _ _))
      (by decide) (by decide) (by decide)
  | name hat hcolon hopen hends =>
    rw [Uri.portOf, rsplitOnce_of_not_mem hcolon]
    rfl

/-- **A port, read again.** -/
theorem portOf_append {p : ℕ} (hp : p < 2 ^ 16) (host : List Char) :
    portOf (host ++ ':' :: (toString p).toList) = some p := by
  have hcolon : ':' ∉ (toString p).toList := fun hm =>
    absurd ((toList_toString_nat p).2 ':' hm) (by decide)
  rw [portOf, rsplitOnce_append hcolon, Option.bind_some, parseU16_toString hp]

theorem portOf_lt {p : ℕ} (h : portOf authority = some p) : p < 2 ^ 16 := by
  obtain ⟨_, -, hp⟩ := Option.bind_eq_some_iff.mp h
  exact of_decide_eq_true (Option.filter_eq_some_iff.mp hp).2

end Host

/-! ### An absolute URI -/

section Absolute

variable {accepts : List Char → Bool} {scheme authority path : List Char}

theorem takeWhile_authority (hauthority : ∀ c ∈ authority, endsAuthority c = false)
    (hpath : ∀ c ∈ path.head?, endsAuthority c = true) :
    ((authority ++ path).takeWhile fun c => !endsAuthority c) = authority := by
  rw [List.takeWhile_append_of_pos fun c hc => by rw [hauthority c hc]; rfl]
  rcases path with _ | ⟨d, path⟩
  · exact List.append_nil authority
  · rw [List.takeWhile_cons, hpath d rfl]
    exact List.append_nil authority

/-- **The parts of a URI that is written from its parts.** -/
theorem parse_append (hscheme : ':' ∉ scheme)
    (hauthority : ∀ c ∈ authority, endsAuthority c = false)
    (hpath : ∀ c ∈ path.head?, endsAuthority c = true) {text : List Char}
    (htext : text = scheme ++ ("://".toList ++ (authority ++ path))) {u : Uri}
    (h : parse accepts text = some u) : u.scheme = some scheme ∧ u.authority = some authority := by
  have hsplit : splitOnceAt "://".toList text = some (scheme, authority ++ path) := by
    rw [htext]
    exact splitOnceAt_append hscheme _
  rw [parse, hsplit] at h
  obtain ⟨-, heq⟩ := Option.ite_none_right_eq_some.mp h
  obtain rfl := Option.some.inj heq
  exact ⟨rfl, congrArg some (takeWhile_authority hauthority hpath)⟩

/-- And it is read where it is taken. -/
theorem parse_isSome (hscheme : ':' ∉ scheme) {rest : List Char}
    (h : accepts (scheme ++ ("://".toList ++ rest)) = true) :
    parse accepts (scheme ++ ("://".toList ++ rest)) = some (split scheme rest) := by
  have hsplit : splitOnceAt "://".toList (scheme ++ ("://".toList ++ rest)) = some (scheme, rest) :=
    splitOnceAt_append hscheme _
  rw [parse, hsplit]
  exact if_pos h

end Absolute

end Syndeo.Uri
