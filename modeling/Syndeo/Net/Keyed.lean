import Syndeo.Platform
import Syndeo.Http.Spelling

/-!
# Which resource a key names

The key of a response is made of its URL by `Cache::normalize_url`, which reads it
with the `url` crate; the request is sent to what the `http` crate reads of it.
The first writes every address in the one spelling of the URL standard, the second
keeps the path and the query as they are written. So two addresses that differ in
their spelling alone have one key, while the origin sees two requests.

What the crates do is taken as they describe it: that `url` reads and writes what
the standard does (`Syndeo.FollowsStandard`), and that `http` takes no blanks, no
empty authority and no backslash in one (`Syndeo.UriCrate`). Addresses with only
one spelling have one key only where the origin sees one request, and no other may
be added to them (`Syndeo.one_key_one_resource`).
-/

namespace Syndeo

open Text Spelling

/-! ### What is sent -/

/-- `NetError`, as far as it is about addresses. -/
inductive NetError
  | invalidUrl (url : String)
  deriving DecidableEq

/-- The URI that `origin_headers` asks for. -/
def originUri (accepts : List Char → Bool) (url : String) : Except NetError Uri :=
  match Uri.parse accepts url.toList with
  | some uri => if uri.host = none then .error (.invalidUrl url) else .ok uri
  | none => .error (.invalidUrl url)

/-- What the origin sees of a URI. -/
def Uri.seen (u : Uri) : Spelling.Seen where
  scheme := (u.scheme.getD []).map lowerChar
  user := u.authority.bind fun a => (rsplitOnce '@' a).map Prod.fst
  host := (u.host.getD []).map lowerChar
  port := u.port.or (schemePort ((u.scheme.getD []).map lowerChar))
  path := orSlash (u.pathAndQuery.takeWhile fun c => c != '?')
  query := (splitOnce '?' u.pathAndQuery).map Prod.snd

/-- **A request is sent**: its address is a URI, of one of the schemes the client
has a connector for. -/
structure Sends (accepts : List Char → Bool) (url : String) (u : Uri) : Prop where
  uri : originUri accepts url = .ok u
  scheme : schemePort u.seen.scheme ≠ none

/-! ### What is relied on -/

/-- **An address the standard has nothing to repair in** before it reads it: no
blanks, and behind the slashes an authority. -/
structure Absolute (text scheme rest : List Char) : Prop where
  blank : ∀ c ∈ text.takeWhile (fun c => c != '#'), 0x20 < c.toNat
  split : splitOnceAt "://".toList text = some (scheme, rest)
  scheme : schemePort (scheme.map lowerChar) ≠ none
  authority : (rest.takeWhile fun c => !Uri.endsAuthority c) ≠ []
  backslash : '\\' ∉ rest.takeWhile fun c => !Uri.endsAuthority c

/-- **What the `http` crate takes.** -/
structure UriCrate (accepts : List Char → Bool) : Prop where
  absolute : ∀ text scheme rest, accepts text = true →
    splitOnceAt "://".toList text = some (scheme, rest) →
      schemePort (scheme.map lowerChar) ≠ none → Absolute text scheme rest

/-- **What the `url` crate reads and writes**: the standard's reading of an address,
where there is one, and without a fragment the standard's spelling of it. -/
structure FollowsStandard (P : Platform) (S : Standard) : Prop where
  refused : ∀ (url : String) (scheme rest : List Char) (p : Pieces),
    Absolute url.toList scheme rest → pieces url.toList = some p → S.read p = none →
      P.parseUrl url = none
  parsed : ∀ (url : String) (scheme rest : List Char) (p : Pieces) (v : Parts),
    Absolute url.toList scheme rest → pieces url.toList = some p → S.read p = some v →
      ∃ (carried : String) (fragment : Option String),
        P.parseUrl url =
          some ⟨.ofList v.scheme, some (.ofList v.host), v.port, carried, fragment⟩ ∧
        P.showUrl ⟨.ofList v.scheme, some (.ofList v.host), v.port, carried, none⟩ =
          .ofList v.pieces.write

/-! ### The two readings agree -/

section Readings

variable {text scheme rest : List Char} {S : Standard} {p : Pieces} {v : Parts}

/-- What is cut off a host is put back. -/
theorem splitPort_append_eq {inside : Bool} {cs : List Char} :
    (Spelling.splitPort inside cs).1 ++
        ((Spelling.splitPort inside cs).2.map (':' :: ·)).getD [] = cs := by
  induction cs generalizing inside with
  | nil => rfl
  | cons c cs ih =>
    rw [Spelling.splitPort]
    by_cases hc : c = ':' ∧ inside = false
    · rw [if_pos hc, hc.1]
      rfl
    · rw [if_neg hc]
      exact congrArg (c :: ·) ih

/-- The authority that both read. -/
theorem Absolute.cut (h : Absolute text scheme rest) : pieces text = some (Spelling.cut scheme
    (rest.takeWhile fun c => !Uri.endsAuthority c) (Uri.split scheme rest).pathAndQuery) := by
  have hbackslash := h.backslash
  have hends : ∀ c ∈ rest.takeWhile fun c => !Uri.endsAuthority c, Uri.endsAuthority c = false :=
    fun c hc => by simpa using List.mem_takeWhile_imp hc
  have happend : (rest.takeWhile fun c => !Uri.endsAuthority c) ++
      (rest.dropWhile fun c => !Uri.endsAuthority c) = rest := List.takeWhile_append_dropWhile
  have hafter := List.head?_dropWhile_not (fun c => !Uri.endsAuthority c) rest
  have hpath : (Uri.split scheme rest).pathAndQuery =
      (rest.dropWhile fun c => !Uri.endsAuthority c).takeWhile fun c => c != '#' := rfl
  rw [hpath]
  generalize (rest.takeWhile fun c => !Uri.endsAuthority c) = authority at *
  generalize (rest.dropWhile fun c => !Uri.endsAuthority c) = after at *
  have hmain : (rest.takeWhile fun c => c != '#') =
      authority ++ after.takeWhile fun c => c != '#' := by
    rw [← happend, List.takeWhile_append_of_pos]
    exact fun c hc => bne_iff_ne.mpr fun he => absurd (hends c hc) (he ▸ by decide)
  have hfront : ∀ c ∈ authority, (!endsHost c) = true := by
    intro c hc
    have hc' := hends c hc
    simp only [Uri.endsAuthority, Bool.or_eq_false_iff, beq_eq_false_iff_ne] at hc'
    have hne : c ≠ '\\' := fun he => hbackslash (he ▸ hc)
    simp [endsHost, isSlash, hc'.1.1, hc'.1.2, hne]
  have hback : ∀ c ∈ (after.takeWhile fun c => c != '#').head?, (!endsHost c) = false := by
    rcases after with _ | ⟨d, after⟩
    · simp
    · intro c hc
      rw [List.takeWhile_cons] at hc
      split at hc
      · rename_i hd
        obtain rfl := Option.some.inj hc
        have hd' : Uri.endsAuthority d = true := by simpa using hafter
        simp only [Uri.endsAuthority, Bool.or_eq_true, beq_iff_eq] at hd'
        rcases hd' with (rfl | rfl) | rfl
        · decide
        · decide
        · exact absurd hd (by decide)
      · cases hc
  obtain ⟨hauthority, hrest⟩ := takeWhile_append_of_head _ _ _ hfront hback
  rw [pieces, h.split, Option.map_some]
  simp only [hmain, hauthority, hrest]

theorem of_mem_head?_takeWhile {q : Char → Bool} {cs : List Char} {c : Char}
    (h : c ∈ (cs.takeWhile q).head?) : c ∈ cs.head? ∧ q c = true := by
  rcases cs with _ | ⟨d, cs⟩
  · exact nomatch h
  · rw [List.takeWhile_cons] at h
    split at h
    · rename_i hd
      obtain rfl := Option.some.inj h
      exact ⟨rfl, hd⟩
    · exact nomatch h

/-- What holds of the pieces of an address the standard has nothing to repair in. -/
theorem Absolute.cutOf (h : Absolute text scheme rest) (hp : pieces text = some p) : p.Cut := by
  obtain rfl := Option.some.inj (h.cut.symm.trans hp)
  have hends : ∀ c ∈ rest.takeWhile fun c => !Uri.endsAuthority c, endsHost c = false ∧ c ≠ '#' := by
    intro c hc
    have hc' : Uri.endsAuthority c = false := by simpa using List.mem_takeWhile_imp hc
    simp only [Uri.endsAuthority, Bool.or_eq_false_iff, beq_eq_false_iff_ne] at hc'
    have hne : c ≠ '\\' := fun he => h.backslash (he ▸ hc)
    simp only [endsHost, isSlash, Bool.or_eq_false_iff, beq_eq_false_iff_ne]
    exact ⟨⟨⟨hc'.1.1, hne⟩, hc'.1.2⟩, hc'.2⟩
  have hnumber : ∀ c ∈ (Uri.split scheme rest).pathAndQuery, c ≠ '#' := by
    intro c hc
    simpa using List.mem_takeWhile_imp hc
  have hscheme : scheme.map lowerChar = "http".toList ∨ scheme.map lowerChar = "https".toList := by
    by_contra hne
    rw [not_or] at hne
    exact h.scheme (by rw [schemePort, if_neg hne.1, if_neg hne.2])
  refine { scheme := ?_, lower := ?_, user := ?_, path := ?_, begins := ?_, query := ?_ }
  · change ':' ∉ scheme.map lowerChar
    rcases hscheme with he | he
    · rw [he]
      decide
    · rw [he]
      decide
  · change (scheme.map lowerChar).map lowerChar = scheme.map lowerChar
    rw [List.map_map]
    exact List.map_congr_left fun c _ => lowerChar_lowerChar c
  · rintro u hu c hc
    obtain ⟨⟨user, back⟩, hsplit, rfl⟩ := Option.map_eq_some_iff.mp hu
    refine hends c ?_
    rw [eq_append_of_rsplitOnce hsplit]
    exact List.mem_append_left _ hc
  · intro c hc
    exact ⟨by simpa using List.mem_takeWhile_imp hc,
      hnumber c ((List.takeWhile_sublist _).subset hc)⟩
  · intro c hc
    obtain ⟨hc, hquery⟩ := of_mem_head?_takeWhile hc
    obtain ⟨hc, hne⟩ := of_mem_head?_takeWhile hc
    have hends := List.head?_dropWhile_not (fun c => !Uri.endsAuthority c) rest
    rw [hc] at hends
    simp only [Uri.endsAuthority, Bool.not_eq_false', Bool.or_eq_true, beq_iff_eq] at hends
    rcases hends with (he | he) | he
    · exact he
    · exact absurd he (by simpa using hquery)
    · exact absurd he (by simpa using hne)
  · rintro q hq hm
    obtain ⟨⟨front, query⟩, hsplit, rfl⟩ := Option.map_eq_some_iff.mp hq
    refine hnumber '#' ?_ rfl
    rw [eq_append_of_splitOnce hsplit]
    exact List.mem_append_right _ (List.mem_cons_of_mem _ hm)

/-- What a URI that is read consists of. -/
theorem Sends.absolute {accepts : List Char → Bool} (hcrate : UriCrate accepts) {url : String}
    {u : Uri} (h : Sends accepts url u) : ∃ scheme rest,
      Absolute url.toList scheme rest ∧ u = Uri.split scheme rest := by
  obtain ⟨huri, hscheme⟩ := h
  rw [originUri] at huri
  rcases hparse : Uri.parse accepts url.toList with _ | uri
  · rw [hparse] at huri
    cases huri
  · rw [hparse] at huri
    obtain rfl : uri = u := by
      dsimp only at huri
      split at huri
      · cases huri
      · exact Except.ok.inj huri
    rw [Uri.parse] at hparse
    rcases hsplit : splitOnceAt "://".toList url.toList with _ | ⟨scheme, rest⟩
    · rw [hsplit] at hparse
      cases hparse
    · rw [hsplit] at hparse
      obtain ⟨haccepts, heq⟩ := Option.ite_none_right_eq_some.mp hparse
      obtain rfl := Option.some.inj heq
      exact ⟨scheme, rest, hcrate.absolute _ _ _ haccepts hsplit hscheme, rfl⟩

section Authority

variable {authority after : List Char}

/-- The host and the port stand behind the last `@`. -/
theorem hostPort_cut : ((rsplitOnce '@' authority).map Prod.snd).getD authority =
    (Spelling.cut scheme authority after).host ++
      ((Spelling.cut scheme authority after).port.map (':' :: ·)).getD [] :=
  splitPort_append_eq.symm

theorem hostOf_cut (h : (Spelling.cut scheme authority after).Apart) :
    Uri.hostOf authority = (Spelling.cut scheme authority after).host := by
  have hat := h.at_not_mem
  have hsame : Uri.hostOf authority =
      Uri.hostOf (((rsplitOnce '@' authority).map Prod.snd).getD authority) := by
    rw [← hostPort_cut] at hat
    rw [Uri.hostOf_of_at_not_mem hat, Uri.hostOf]
  rw [hsame, hostPort_cut]
  refine Uri.hostOf_append h.host.isHost (fun hm => hat (List.mem_append_right _ hm)) ?_
  rcases (Spelling.cut scheme authority after).port with _ | port
  · simp
  · exact fun c hc => (Option.some.inj hc).symm

/-- A colon of the user information begins no port. -/
theorem portOf_user {host : List Char} (h : Uri.IsHost host) (user : List Char) :
    Uri.portOf (user ++ '@' :: host) = none := by
  cases h with
  | @address inner hat hclose hends =>
    have hlast : (user ++ '@' :: ('[' :: inner ++ [']'])).getLast? = some ']' := by
      rw [← List.cons_append, ← List.append_assoc, List.getLast?_concat]
    exact Uri.portOf_of_getLast hlast (by decide) (by decide) (by decide)
  | name hat hcolon hopen hends =>
    rw [Uri.portOf]
    rcases hsplit : rsplitOnce ':' user with _ | ⟨front, back⟩
    · have huser := not_mem_of_rsplitOnce_eq_none hsplit
      rw [rsplitOnce_of_not_mem (by simp [huser, hcolon])]
      rfl
    · have hback := not_mem_of_rsplitOnce hsplit
      rw [eq_append_of_rsplitOnce hsplit, List.append_assoc, List.cons_append,
        rsplitOnce_append (by simp [hback, hcolon])]
      exact Uri.parseU16_of_mem (List.mem_append_right _ List.mem_cons_self) (by decide) (by decide)

theorem portOf_cut (h : (Spelling.cut scheme authority after).Apart) :
    Uri.portOf authority = (Spelling.cut scheme authority after).port.bind Uri.parseU16 := by
  have hhost := h.host.isHost
  have hport := h.port
  have hwritten : authority = ((rsplitOnce '@' authority).map Prod.fst |>.map (· ++ ['@'])).getD [] ++
      ((Spelling.cut scheme authority after).host ++
        ((Spelling.cut scheme authority after).port.map (':' :: ·)).getD []) := by
    rw [← hostPort_cut]
    rcases hsplit : rsplitOnce '@' authority with _ | ⟨user, back⟩
    · rfl
    · rw [eq_append_of_rsplitOnce hsplit]
      simp
  generalize (Spelling.cut scheme authority after).host = host at *
  generalize (Spelling.cut scheme authority after).port = port at *
  generalize (rsplitOnce '@' authority).map Prod.fst = user at *
  rcases port with _ | port
  · rw [Option.map_none, Option.getD_none, List.append_nil] at hwritten
    rcases user with _ | user
    · rw [hwritten]
      exact hhost.portOf
    · have hat : authority = user ++ '@' :: host := by rw [hwritten]; simp
      rw [hat]
      exact portOf_user hhost user
  · have hcolon : ':' ∉ port := fun hm => absurd (hport port rfl ':' hm) (by decide)
    rw [hwritten, Option.map_some, Option.getD_some, ← List.append_assoc, Uri.portOf,
      rsplitOnce_append hcolon]
    rfl

end Authority

/-- Where the host is one and the port a number, both read the same host and port. -/
theorem Absolute.seen (h : Absolute text scheme rest) (hp : pieces text = some p)
    (hapart : p.Apart) : (Uri.split scheme rest).seen = p.seen := by
  obtain rfl := Option.some.inj (h.cut.symm.trans hp)
  have hhost : (Uri.split scheme rest).host = some _ := congrArg some (hostOf_cut hapart)
  have hport : (Uri.split scheme rest).port = _ := portOf_cut hapart
  rw [Uri.seen, Pieces.seen, Seen.mk.injEq, hhost, hport]
  exact ⟨rfl, rfl, rfl, rfl, rfl, rfl⟩

end Readings

/-! ### The key -/

section Key

variable {P : Platform} {S : Standard} {accepts : List Char → Bool} {url : String}
  {scheme rest : List Char} {p : Pieces} {v : Parts}

/-- There is no port of the scheme to take away. -/
theorem setPort_portOrKnownDefault {scheme host carried : String} {port : Option ℕ}
    (hport : ∀ n ∈ port, Url.defaultPort scheme ≠ some n)
    (hscheme : scheme = "http" ∨ scheme = "https") :
    (⟨scheme, some host, port, carried, none⟩ : Url).setPort
      ((⟨scheme, some host, port, carried, none⟩ : Url).portOrKnownDefault.filter fun p =>
        ¬((scheme = "http" ∧ p = 80) ∨ (scheme = "https" ∧ p = 443))) =
      ⟨scheme, some host, port, carried, none⟩ := by
  rcases port with _ | n
  · have hnone : (⟨scheme, some host, none, carried, none⟩ : Url).portOrKnownDefault.filter (fun p =>
        ¬((scheme = "http" ∧ p = 80) ∨ (scheme = "https" ∧ p = 443))) = none := by
      rcases hscheme with rfl | rfl
      · rfl
      · rfl
    rw [hnone, Url.setPort]
    simp
  · have hn := hport n rfl
    have hsome : (⟨scheme, some host, some n, carried, none⟩ : Url).portOrKnownDefault.filter
        (fun p => ¬((scheme = "http" ∧ p = 80) ∨ (scheme = "https" ∧ p = 443))) = some n := by
      refine Option.filter_eq_some_iff.mpr ⟨rfl, decide_eq_true ?_⟩
      rintro (⟨rfl, rfl⟩ | ⟨rfl, rfl⟩)
      · exact hn rfl
      · exact hn rfl
    rw [hsome, Url.setPort]
    split
    · rfl
    · exact if_neg fun he => hn he.2.symm

theorem schemePort_eq_defaultPort {scheme : List Char} (h : schemePort scheme ≠ none) :
    (String.ofList scheme = "http" ∨ String.ofList scheme = "https") ∧
      Url.defaultPort (.ofList scheme) = schemePort scheme := by
  rw [schemePort] at h ⊢
  split_ifs at h ⊢ with h₁ h₂
  · rw [h₁, String.ofList_toList]
    exact ⟨Or.inl rfl, rfl⟩
  · rw [h₂, String.ofList_toList]
    exact ⟨Or.inr rfl, rfl⟩
  · exact absurd rfl h

/-- **The key of an address is its one spelling.** -/
theorem normalizeUrl_of_read (hurl : FollowsStandard P S) (h : Absolute url.toList scheme rest)
    (hp : pieces url.toList = some p) (hread : S.read p = some v) :
    normalizeUrl P url = .ofList v.pieces.write := by
  obtain ⟨hscheme, -, hport, hv, -⟩ := Standard.read_eq_some_iff.mp hread
  obtain ⟨-, -, hnumber⟩ := readPort_spec hport
  obtain ⟨hname, hdefault⟩ := schemePort_eq_defaultPort hscheme
  obtain ⟨carried, fragment, hparse, hshow⟩ := hurl.parsed url scheme rest p v h hp hread
  rw [normalizeUrl, hparse]
  rw [← hv] at hname hdefault
  refine Eq.trans (congrArg P.showUrl (setPort_portOrKnownDefault (fun n hn => ?_) hname)) hshow
  rw [hdefault, hv]
  exact (hnumber n hn).2

/-- And that of what is no address is what is written. -/
theorem normalizeUrl_of_refused (hurl : FollowsStandard P S) (h : Absolute url.toList scheme rest)
    (hp : pieces url.toList = some p) (hread : S.read p = none) : normalizeUrl P url = url := by
  rw [normalizeUrl, hurl.refused url scheme rest p h hp hread]

/-- **An address with only one spelling**, or none at all. -/
def OneSpelling (S : Standard) (url : String) : Prop :=
  ∀ p, pieces url.toList = some p → ∀ v, S.read p = some v → S.Plain p

/-- **One key, one resource**: where two addresses have one key, the origin sees
one request. -/
def OneResource (P : Platform) (accepts : List Char → Bool) (a b : String) : Prop :=
  ∀ x y, Sends accepts a x → Sends accepts b y → normalizeUrl P a = normalizeUrl P b →
    x.seen = y.seen

/-- What the key of an address that is sent says of what the origin sees. -/
theorem Sends.key (hcrate : UriCrate accepts) (hurl : FollowsStandard P S) {x : Uri}
    (h : Sends accepts url x) : ∃ p, pieces url.toList = some p ∧
      (S.read p = none ∧ normalizeUrl P url = url ∨
        ∃ v, S.read p = some v ∧ normalizeUrl P url = .ofList v.pieces.write ∧
          pieces (normalizeUrl P url).toList = some v.pieces ∧ S.read v.pieces = some v ∧
            x.seen = p.seen ∧ (x.seen = v.pieces.seen ↔ OneSpelling S url)) := by
  obtain ⟨scheme, rest, habsolute, rfl⟩ := h.absolute hcrate
  refine ⟨_, habsolute.cut, ?_⟩
  have hp := habsolute.cut
  generalize Spelling.cut scheme _ _ = p at hp
  rcases hread : S.read p with _ | v
  · exact Or.inl ⟨rfl, normalizeUrl_of_refused hurl habsolute hp hread⟩
  · have hcut := habsolute.cutOf hp
    have hapart := S.apart_pieces hcut hread
    have hkey := normalizeUrl_of_read hurl habsolute hp hread
    have hseen := habsolute.seen hp (hcut.apart hread)
    refine Or.inr ⟨v, rfl, hkey, ?_, S.read_pieces hread, hseen, ?_⟩
    · rw [hkey, String.toList_ofList]
      exact hapart.pieces_write
    · rw [hseen, eq_comm, S.seen_pieces_iff hcut hread]
      refine ⟨fun hplain p' hp' v' _ => ?_, fun hplain => hplain p hp v hread⟩
      rwa [← Option.some.inj (hp.symm.trans hp')]

/-- **Addresses with only one spelling have one key only where the origin sees one
request**, and no address may be added to them whose key is one itself. -/
theorem one_key_one_resource (P : Platform) (S : Standard) (accepts : List Char → Bool)
    (hcrate : UriCrate accepts) (hurl : FollowsStandard P S) :
    (∀ a b, OneSpelling S a → OneSpelling S b → OneResource P accepts a b) ∧
      ∀ a, (∃ x, Sends accepts a x) → (∃ y, Sends accepts (normalizeUrl P a) y) →
        ((∀ b, OneSpelling S b → OneResource P accepts a b) ↔ OneSpelling S a) := by
  have hfirst : ∀ a b, OneSpelling S a → OneSpelling S b → OneResource P accepts a b := by
    intro a b ha hb x y hx hy hkeys
    obtain ⟨p, hp, ⟨hread, hkey⟩ | ⟨v, hread, hkey, hpieces, hagain, -, hseen⟩⟩ :=
      hx.key hcrate hurl
    · obtain ⟨p', hp', ⟨-, hkey'⟩ | ⟨v', -, -, hpieces', hagain', -⟩⟩ := hy.key hcrate hurl
      · obtain rfl : a = b := by rw [← hkey, hkeys, hkey']
        rw [Except.ok.inj (hx.uri.symm.trans hy.uri)]
      · rw [← hkeys, hkey, hp] at hpieces'
        rw [← Option.some.inj hpieces', hread] at hagain'
        exact nomatch hagain'
    · obtain ⟨p', hp', ⟨hread', hkey'⟩ | ⟨v', -, -, hpieces', -, -, hseen'⟩⟩ := hy.key hcrate hurl
      · rw [hkeys, hkey', hp'] at hpieces
        rw [← Option.some.inj hpieces, hread'] at hagain
        exact nomatch hagain
      · rw [hkeys, hpieces', Option.some.injEq] at hpieces
        rw [hseen.mpr ha, hseen'.mpr hb, hpieces]
  refine ⟨hfirst, fun a ⟨x, hx⟩ ⟨y, hy⟩ => ⟨fun h => ?_, fun ha b hb => hfirst a b ha hb⟩⟩
  obtain ⟨p, hp, ⟨hread, -⟩ | ⟨v, hread, hkey, hpieces, hagain, -, hseen⟩⟩ := hx.key hcrate hurl
  · -- what is no address has no spelling
    intro p' hp' v hread'
    rw [← Option.some.inj (hp.symm.trans hp'), hread] at hread'
    exact nomatch hread'
  · obtain ⟨p', hp', ⟨hread', -⟩ | ⟨v', hread', hkey', -, -, hsame, hone⟩⟩ := hy.key hcrate hurl
    · rw [← Option.some.inj (hpieces.symm.trans hp'), hagain] at hread'
      exact nomatch hread'
    · obtain rfl := Option.some.inj (hpieces.symm.trans hp')
      obtain rfl := Option.some.inj (hagain.symm.trans hread')
      exact hseen.mp ((h _ (hone.mp hsame) x y hx hy (hkey.trans hkey'.symm)).trans hsame)

end Key

/-! ### Two spellings of one path -/

/-- A set of characters that are neither letters nor digits, with the blanks and
what is outside ASCII. -/
def sampleSet (marks : List Char)
    (h : ∀ c ∈ marks, c ≠ '%' ∧ c ≠ '.' ∧ c.isAlphanum = false) : EscapeSet where
  holds c := c.toNat < 0x21 || 0x7E < c.toNat || marks.contains c
  kept c hc := by
    have hmark : marks.contains c = false := by
      by_contra hm
      obtain ⟨hpercent, hdot, halnum⟩ := h c (by simpa using hm)
      rcases hc with hc | hc | hc
      · exact hpercent hc
      · exact hdot hc
      · exact absurd (hc.symm.trans halnum) (by decide)
    have hrange : 0x21 ≤ c.toNat ∧ c.toNat ≤ 0x7E := by
      rcases hc with rfl | rfl | hc
      · decide
      · decide
      · rw [Char.isAlphanum, Bool.or_eq_true, isAlpha_iff, isDigit_iff] at hc
        omega
    rw [hmark]
    simpa using hrange

/-- The host of the examples, in whatever case. -/
def sampleHost (host : List Char) : Option (List Char) :=
  if host.map lowerChar = "a.test".toList then some "a.test".toList else none

theorem hostShape_sample {host : List Char} (h : host.map lowerChar = "a.test".toList) :
    HostShape host := by
  have hnot : ∀ d : Char, lowerChar d = d → d ∉ "a.test".toList → d ∉ host := by
    intro d hd hmem hm
    refine hmem ?_
    rw [← h, ← hd]
    exact List.mem_map_of_mem hm
  have hopen : '[' ∉ host := hnot _ (by decide) (by decide)
  refine ⟨.name (hnot _ (by decide) (by decide)) (hnot _ (by decide) (by decide)) ?_ ?_,
    fun hm => absurd hm hopen, hnot _ (by decide) (by decide)⟩
  · exact fun hhead => hopen (List.mem_of_mem_head? hhead)
  · intro c hc
    by_contra hends
    simp only [Uri.endsAuthority, Bool.not_eq_false, Bool.or_eq_true, beq_iff_eq] at hends
    rcases hends with (rfl | rfl) | rfl
    · exact hnot _ (by decide) (by decide) hc
    · exact hnot _ (by decide) (by decide) hc
    · exact hnot _ (by decide) (by decide) hc

/-- The standard, with the one host of the examples. -/
def sampleStandard : Standard where
  user := sampleSet ['"', '#', '<', '>', '?', '\x60', '{', '}', '/', ':', ';', '=', '@', '[', '\\',
    ']', '^', '|'] (by decide)
  path := sampleSet ['"', '#', '<', '>', '?', '\x60', '{', '}'] (by decide)
  query := sampleSet ['"', '#', '<', '>', '\''] (by decide)
  host := sampleHost
  shape h h' hh := by
    obtain ⟨hlower, heq⟩ := Option.ite_none_right_eq_some.mp hh
    rw [← Option.some.inj heq]
    exact ⟨hostShape_sample hlower, hostShape_sample (by decide)⟩
  lower h h' hh := by
    obtain ⟨-, heq⟩ := Option.ite_none_right_eq_some.mp hh
    rw [← Option.some.inj heq]
    decide
  again h h' hh := by
    obtain ⟨-, heq⟩ := Option.ite_none_right_eq_some.mp hh
    rw [← Option.some.inj heq]
    exact if_pos (by decide)

/-- What a `Url` carries along of an address: all but the scheme, the host and the
port. -/
def carriedOf (p : Pieces) : String :=
  .ofList (((p.user.map (· ++ ['@'])).getD []) ++ (p.path ++ (p.query.map ('?' :: ·)).getD []))

/-- `Url::parse`, as the standard has it. -/
def parseUrl (S : Standard) (url : String) : Option Url :=
  ((pieces url.toList).bind S.read).map fun v =>
    ⟨.ofList v.scheme, some (.ofList v.host), v.port, carriedOf v.pieces, none⟩

/-- And what is written of it. -/
def showUrl (u : Url) : String :=
  .ofList (u.scheme.toList ++ ("://".toList ++
    ((u.rest.toList.takeWhile (fun c => c != '/') ++ ((u.host.getD "").toList ++
      ((u.port.map fun n => (toString n).toList).map (':' :: ·)).getD [])) ++
        u.rest.toList.dropWhile fun c => c != '/')))

/-- The libraries, on what the examples hand to them and on every address. -/
def addressPlatform : Platform :=
  { Platform.sample with parseUrl := parseUrl sampleStandard, showUrl }

theorem follows_address : FollowsStandard addressPlatform sampleStandard where
  refused url scheme rest p h hp hread := by
    change parseUrl sampleStandard url = none
    rw [parseUrl, hp, Option.bind_some, hread]
    rfl
  parsed url scheme rest p v h hp hread := by
    have hapart := sampleStandard.apart_pieces (h.cutOf hp) hread
    obtain ⟨-, -, -, -, -, hpath, -⟩ := Standard.read_eq_some_iff.mp hread
    refine ⟨carriedOf v.pieces, none, ?_, ?_⟩
    · change parseUrl sampleStandard url = _
      rw [parseUrl, hp, Option.bind_some, hread]
      rfl
    · have huser : ∀ c ∈ (v.pieces.user.map (· ++ ['@'])).getD [], (c != '/') = true := by
        intro c hc
        have hends := (hapart.of_mem_authority c (List.mem_append_left _ hc)).1
        simp only [endsHost, isSlash, Bool.or_eq_false_iff, beq_eq_false_iff_ne] at hends
        exact bne_iff_ne.mpr hends.1.1
      have hback : ∀ c ∈ (v.pieces.path ++ (v.pieces.query.map ('?' :: ·)).getD []).head?,
          (c != '/') = false := by
        obtain ⟨first, rest, hsegments⟩ :=
          List.exists_cons_of_ne_nil (plain_readPath sampleStandard.path p.path).2
        rw [Parts.pieces, hpath, hsegments]
        intro c hc
        obtain rfl := Option.some.inj hc
        decide
      obtain ⟨hfront, hrest⟩ := takeWhile_append_of_head _ _ _ huser hback
      change showUrl _ = _
      simp only [showUrl, carriedOf, String.toList_ofList, hfront, hrest, Option.getD_some]
      rfl

/-- What is taken: an address the standard has nothing to repair in. -/
def sampleAccepts (text : List Char) : Bool :=
  match splitOnceAt "://".toList text with
  | some (_, rest) =>
    decide (∀ c ∈ text.takeWhile (fun c => c != '#'), 0x20 < c.toNat) &&
      decide ((rest.takeWhile fun c => !Uri.endsAuthority c) ≠ []) &&
        decide ('\\' ∉ rest.takeWhile fun c => !Uri.endsAuthority c)
  | none => false

theorem uriCrate_sample : UriCrate sampleAccepts where
  absolute text scheme rest haccepts hsplit hscheme := by
    rw [sampleAccepts, hsplit] at haccepts
    simp only [Bool.and_eq_true, decide_eq_true_eq] at haccepts
    exact ⟨haccepts.1.1, hsplit, hscheme, haccepts.1.2, haccepts.2⟩

/-- `http://a.test/b`. -/
def plainAddress : List Char :=
  ['h', 't', 't', 'p', ':', '/', '/', 'a', '.', 't', 'e', 's', 't', '/', 'b']

/-- The same, with a capital letter, the port that is meant and a fragment. -/
def capitalAddress : List Char :=
  ['h', 't', 't', 'p', ':', '/', '/', 'A', '.', 't', 'e', 's', 't', ':', '8', '0', '/', 'b', '#', 'c']

/-- `http://a.test/a/../b`. -/
def dottedAddress : List Char :=
  ['h', 't', 't', 'p', ':', '/', '/', 'a', '.', 't', 'e', 's', 't', '/', 'a', '/', '.', '.', '/', 'b']

/-- The requests that are sent for them. -/
def uriOf (address : List Char) : Uri :=
  match splitOnceAt "://".toList address with
  | some (scheme, rest) => .split scheme rest
  | none => ⟨none, none, []⟩

theorem sends_uriOf {address : List Char} (hparse : Uri.parse sampleAccepts address =
    some (uriOf address)) (hhost : (uriOf address).host ≠ none)
    (hscheme : schemePort (uriOf address).seen.scheme ≠ none) :
    Sends sampleAccepts (.ofList address) (uriOf address) := by
  refine ⟨?_, hscheme⟩
  rw [originUri, String.toList_ofList, hparse]
  exact if_neg hhost

theorem sends_plain : Sends sampleAccepts (.ofList plainAddress) (uriOf plainAddress) :=
  sends_uriOf (by decide) (by decide) (by decide)

theorem sends_capital : Sends sampleAccepts (.ofList capitalAddress) (uriOf capitalAddress) :=
  sends_uriOf (by decide) (by decide) (by decide)

theorem sends_dotted : Sends sampleAccepts (.ofList dottedAddress) (uriOf dottedAddress) :=
  sends_uriOf (by decide) (by decide) (by decide)

/-- Addresses that say the same have one key. -/
theorem normalizeUrl_eq_of_read_eq {a b : List Char} {x y : Uri} {v : Parts}
    (ha : Sends sampleAccepts (.ofList a) x) (hb : Sends sampleAccepts (.ofList b) y)
    (hread : (pieces a).bind sampleStandard.read = some v)
    (hread' : (pieces b).bind sampleStandard.read = some v) :
    normalizeUrl addressPlatform (.ofList a) = normalizeUrl addressPlatform (.ofList b) := by
  have hkey : ∀ {c : List Char} {z : Uri}, Sends sampleAccepts (.ofList c) z →
      (pieces c).bind sampleStandard.read = some v →
        normalizeUrl addressPlatform (.ofList c) = .ofList v.pieces.write := by
    intro c z hz hread
    obtain ⟨p, hp, hread⟩ := Option.bind_eq_some_iff.mp hread
    obtain ⟨scheme, rest, habsolute, -⟩ := hz.absolute uriCrate_sample
    exact normalizeUrl_of_read follows_address habsolute (by rwa [String.toList_ofList]) hread
  rw [hkey ha hread, hkey hb hread']

/-- What the plain address says. -/
def plainParts : Parts where
  scheme := ['h', 't', 't', 'p']
  user := ([], [])
  host := ['a', '.', 't', 'e', 's', 't']
  port := none
  path := [['b']]
  query := none

/-- An address that the origin sees as its one spelling has only one. -/
theorem oneSpelling_of_seen {a : List Char} {x : Uri} {v : Parts}
    (ha : Sends sampleAccepts (.ofList a) x)
    (hread : (pieces a).bind sampleStandard.read = some v) (hseen : x.seen = v.pieces.seen) :
    OneSpelling sampleStandard (.ofList a) := by
  obtain ⟨p, hp, ⟨hnone, -⟩ | ⟨v', hread', -, -, -, -, hone⟩⟩ :=
    ha.key uriCrate_sample follows_address
  · rw [← String.toList_ofList (l := a), hp, Option.bind_some, hnone] at hread
    exact nomatch hread
  · rw [← String.toList_ofList (l := a), hp, Option.bind_some, hread'] at hread
    obtain rfl := Option.some.inj hread
    exact hone.mp hseen

/-- A letter, a port and a fragment make no other request. -/
theorem one_key_one_resource_capital :
    normalizeUrl addressPlatform (.ofList plainAddress) =
        normalizeUrl addressPlatform (.ofList capitalAddress) ∧
      (uriOf plainAddress).seen = (uriOf capitalAddress).seen := by
  have hkey := normalizeUrl_eq_of_read_eq (v := plainParts) sends_plain sends_capital (by decide)
    (by decide)
  refine ⟨hkey, ?_⟩
  refine (one_key_one_resource addressPlatform sampleStandard sampleAccepts uriCrate_sample
    follows_address).1 _ _ ?_ ?_ _ _ sends_plain sends_capital hkey
  · exact oneSpelling_of_seen (v := plainParts) sends_plain (by decide) (by decide)
  · exact oneSpelling_of_seen (v := plainParts) sends_capital (by decide) (by decide)

/-- **Two dots make another**, of the same key. -/
theorem dots_share_a_key : ¬∀ (P : Platform) (S : Standard) (accepts : List Char → Bool),
    UriCrate accepts → FollowsStandard P S → ∀ a b, OneResource P accepts a b := by
  intro h
  have hkey := normalizeUrl_eq_of_read_eq (v := plainParts) sends_plain sends_dotted (by decide)
    (by decide)
  have hseen := h addressPlatform sampleStandard sampleAccepts uriCrate_sample follows_address _ _ _ _
    sends_plain sends_dotted hkey
  exact absurd hseen (by decide)

end Syndeo
