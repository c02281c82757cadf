import Syndeo.App.Address
import Mathlib.Data.List.Destutter
import Mathlib.Data.List.Sort

/-!
# Hosts that go around the proxy

macOS accepts no certificate but its own for some sites, so the proxy cannot open them.
The application sends the host of such a site directly from then on, for every window and
for this session. What is decided here is when a failure was such a refusal
(`Syndeo.App.refusal`), which hosts of a page were refused
(`Syndeo.App.toSendDirect`) and which names go along with a domain that is sent
directly (`Syndeo.App.covered`); and the application keeps the domains
(`Syndeo.App.Application.sendDirect`).

A domain covers the names under it and no others (`Syndeo.App.covered_iff`), so a host
is sent directly once.
-/

namespace Syndeo.App

/-! ### What macOS refused -/

/-- `Refusal`: how macOS refused a page through the proxy. -/
inductive Refusal
  | preloaded
  | pinned
  deriving DecidableEq

/-- `SECURE_CONNECTION_FAILED`. -/
def secureConnectionFailed : ℤ := -1200

/-- `CANCELLED`. -/
def cancelled : ℤ := -999

/-- `refusal`. -/
def refusal (domain : String) (code : ℤ) (vouched pinned : Bool) : Option Refusal :=
  if domain ≠ "NSURLErrorDomain" then none
  else if code = secureConnectionFailed ∧ vouched = true then some .preloaded
  else if code = cancelled ∧ pinned = true then some .pinned
  else none

/-- `AfterFailure`. -/
inductive AfterFailure
  | retryDirect (refusal : Refusal)
  | asWebKitSays
  deriving DecidableEq

/-- `after_failure`. -/
def afterFailure (refusal : Option Refusal) (retried : Bool) : AfterFailure :=
  match refusal with
  | some refusal => if retried then .asWebKitSays else .retryDirect refusal
  | none => .asWebKitSays

/-- `explain`. -/
def explain (refusal : Refusal) (host : String) (macos : ℕ) : String :=
  let around := "Syndeo opens every secure page through its own proxy, with a certificate " ++
    "of its own, and could not send this site around it, so it cannot open it."
  match refusal with
  | .preloaded =>
    if 26 ≤ macos then
      "macOS refused the secure connection to " ++ host ++ ", after this window had checked " ++
        "that its certificate came from Syndeo's own proxy. " ++ around
    else
      "macOS refused the secure connection to " ++ host ++ ", after this window had checked " ++
        "that its certificate came from Syndeo's own proxy. On macOS " ++ toString macos ++
        " and earlier, macOS accepts only a publicly trusted certificate for the sites on the " ++
        "HSTS preload list built into macOS, such as github.com, whatever an application " ++
        "says. " ++ around
  | .pinned =>
    "macOS pins " ++ host ++ " to Apple's own certificates, so it accepts no other for it, " ++
      "Syndeo's included. " ++ around

/-! ### Domains -/

/-- A name in lower case, without the dots it ends in. -/
def bare (name : String) : List Char :=
  ((name.toList.reverse.dropWhile fun c => c = '.').reverse).map Text.lowerChar

/-- `str::strip_suffix`, on the characters. -/
def stripSuffix (suffix text : List Char) : Option (List Char) :=
  (Text.stripStart suffix.reverse text.reverse).map List.reverse

/-- `covered`. -/
def covered (host domain : String) : Bool :=
  bare domain ≠ [] && (bare host == bare domain ||
    (stripSuffix (bare domain) (bare host)).any fun rest => rest.getLast? = some '.')

/-- `sent_direct`. -/
def sentDirect (host : String) (direct : List String) : Bool := direct.any (covered host)

/-- `to_send_direct`. -/
def toSendDirect (vouched refused pinned direct : List String) : List String :=
  let hosts := (vouched.filter fun host => host ∈ refused) ++ pinned
  ((hosts.filter fun host => !sentDirect host direct).insertionSort (· ≤ ·)).destutter (· ≠ ·)

variable {host domain : String} {direct : List String}

theorem stripSuffix_eq_some {suffix text rest : List Char} :
    stripSuffix suffix text = some rest ↔ text = rest ++ suffix := by
  rw [stripSuffix, Option.map_eq_some_iff]
  constructor
  · rintro ⟨tser, htser, rfl⟩
    have hsplit := Text.eq_append_of_stripStart htser
    rw [← List.reverse_reverse text, hsplit, List.reverse_append, List.reverse_reverse]
  · rintro rfl
    exact ⟨rest.reverse, by rw [List.reverse_append, Text.stripStart_append], by simp⟩

/-- **A domain covers itself and the names under it.** -/
theorem covered_iff : covered host domain = true ↔ bare domain ≠ [] ∧
    (bare host = bare domain ∨ ∃ labels, bare host = labels ++ '.' :: bare domain) := by
  rw [covered, Bool.and_eq_true, decide_eq_true_eq, Bool.or_eq_true, beq_iff_eq]
  refine and_congr_right fun _ => or_congr_right ?_
  rw [Option.any_eq_true]
  constructor
  · rintro ⟨rest, hrest, hlast⟩
    rw [stripSuffix_eq_some] at hrest
    obtain ⟨labels, rfl⟩ := List.getLast?_eq_some_iff.mp (of_decide_eq_true hlast)
    exact ⟨labels, by rw [hrest, List.append_assoc]; rfl⟩
  · rintro ⟨labels, hlabels⟩
    refine ⟨labels ++ ['.'], stripSuffix_eq_some.mpr ?_, by simp⟩
    rw [hlabels, List.append_assoc]
    rfl

theorem mem_destutter'_ne {x a : String} {l : List String} (hx : x ∈ a :: l) :
    x ∈ l.destutter' (· ≠ ·) a := by
  induction l generalizing a with
  | nil => exact hx
  | cons b l ih =>
    by_cases hab : a = b
    · rw [List.destutter'_cons_neg _ (not_not.mpr hab)]
      subst hab
      exact ih (by simpa using hx)
    · rw [List.destutter'_cons_pos _ hab]
      rcases List.mem_cons.mp hx with rfl | hx
      · exact List.mem_cons_self
      · exact List.mem_cons_of_mem _ (ih hx)

theorem mem_destutter_ne {x : String} {l : List String} :
    x ∈ l.destutter (· ≠ ·) ↔ x ∈ l := by
  refine ⟨fun hx => (List.destutter_sublist _ l).subset hx, fun hx => ?_⟩
  cases l with
  | nil => exact hx
  | cons a l => exact mem_destutter'_ne hx

/-- **Which hosts of a page are sent directly.** -/
theorem mem_toSendDirect {vouched refused pinned : List String} :
    host ∈ toSendDirect vouched refused pinned direct ↔
      ((host ∈ vouched ∧ host ∈ refused) ∨ host ∈ pinned) ∧ sentDirect host direct = false := by
  rw [toSendDirect, mem_destutter_ne, List.mem_insertionSort, List.mem_filter, List.mem_append,
    List.mem_filter, decide_eq_true_eq, Bool.not_eq_true']

/-! ### The application's lists -/

/-- `DIRECT_KEPT`. -/
def directKept : ℕ := 1024

/-- What the windows share (`State`): whether there is a proxy to browse through, the domains
that go around it, and the hosts it has said were refused. -/
structure Application where
  ready : Bool
  direct : List String
  heard : List String

namespace Application

variable (a : Application)

/-- One more domain that goes around the proxy. -/
def exclude (direct : List String) (host : String) : List String :=
  if sentDirect host direct = false ∧ direct.length < directKept then direct ++ [host] else direct

/-- `send_direct`, with `excludes` saying whether macOS took the new configuration; whether that
took effect. -/
def sendDirect (hosts : List String) (excludes : Bool) : Bool × Application :=
  if a.ready && excludes then (true, { a with direct := hosts.foldl exclude a.direct })
  else (false, a)

/-- One more host that was refused. -/
def hear (heard : List String) (host : String) : List String :=
  if host ∉ heard ∧ heard.length < directKept then heard ++ [host] else heard

/-- `refused`, when the proxy has said these. -/
def refused (said : List String) : Application := { a with heard := said.foldl hear a.heard }

variable {a}

/-- **What goes around the proxy**: no more domains than are kept, and none that an earlier one
covers. -/
def Excluding (direct : List String) : Prop :=
  direct.length ≤ directKept ∧ direct.Pairwise fun d d' => covered d' d = false

theorem excluding_exclude (h : Excluding direct) : Excluding (exclude direct host) := by
  obtain ⟨hlen, hpair⟩ := h
  rw [exclude]
  split_ifs with hroom
  · obtain ⟨hnot, hlt⟩ := hroom
    refine ⟨by rw [List.length_append, List.length_singleton]; omega, ?_⟩
    refine List.pairwise_append.mpr ⟨hpair, List.pairwise_singleton _ _, ?_⟩
    intro d hd d' hd'
    obtain rfl := List.mem_singleton.mp hd'
    exact Bool.eq_false_iff.mpr fun hcovered =>
      Bool.eq_false_iff.mp hnot (List.any_eq_true.mpr ⟨d, hd, hcovered⟩)
  · exact ⟨hlen, hpair⟩

theorem mem_exclude {d : String} (hd : d ∈ exclude direct host) : d ∈ direct ∨ d = host := by
  rw [exclude] at hd
  split_ifs at hd
  · rcases List.mem_append.mp hd with hd | hd
    · exact .inl hd
    · exact .inr (List.mem_singleton.mp hd)
  · exact .inl hd

theorem excluding_foldl {hosts : List String} (h : Excluding direct) :
    Excluding (hosts.foldl exclude direct) := by
  induction hosts generalizing direct with
  | nil => exact h
  | cons host hosts ih => exact ih (excluding_exclude h)

theorem mem_foldl_exclude {hosts : List String} {d : String}
    (hd : d ∈ hosts.foldl exclude direct) : d ∈ direct ∨ d ∈ hosts := by
  induction hosts generalizing direct with
  | nil => exact .inl hd
  | cons host hosts ih =>
    rcases ih hd with hd | hd
    · rcases mem_exclude hd with hd | rfl
      · exact .inl hd
      · exact .inr List.mem_cons_self
    · exact .inr (List.mem_cons_of_mem _ hd)

theorem mem_foldl_hear {said heard : List String} (hhost : host ∈ said.foldl hear heard) :
    host ∈ heard ∨ host ∈ said := by
  induction said generalizing heard with
  | nil => exact .inl hhost
  | cons first said ih =>
    rcases ih hhost with hhost | hhost
    · rw [hear] at hhost
      split_ifs at hhost
      · rcases List.mem_append.mp hhost with hhost | hhost
        · exact .inl hhost
        · exact .inr (List.mem_singleton.mp hhost ▸ List.mem_cons_self)
      · exact .inl hhost
    · exact .inr (List.mem_cons_of_mem _ hhost)

/-- What `send_direct` does. -/
theorem sendDirect_cases (a : Application) (hosts : List String) (excludes : Bool) :
    a.sendDirect hosts excludes = (false, a) ∨ a.ready = true ∧
      a.sendDirect hosts excludes = (true, { a with direct := hosts.foldl exclude a.direct }) := by
  rw [sendDirect]
  split_ifs with h
  · exact .inr ⟨(Bool.and_eq_true_iff.mp h).1, rfl⟩
  · exact .inl rfl

end Application

end Syndeo.App
