import Syndeo.Cache.Content

/-!
# The boundary of storage

A stored response's fields are those of a message, or of several where a
confirmation was folded in, less those that were the connection's and those that
were one client's. What is left out depends on the message that brought a field,
on what its `Connection` names; so what is said of an entry's field speaks of the
operation that wrote the entry and brought that field to it (`Syndeo.Op.Brings`,
`Syndeo.Kept`).

A `Connection` is a list of names, and the code reads it as text. A value with a
byte that is not visible ASCII is passed over as a whole, and what it names is
not left out: `Syndeo.entries_bare` is about the values that are text, and
`Syndeo.named_field_stored` is an entry with a field that another value named.
-/

namespace Syndeo

open Concurrent
open Text (toAsciiLowercase trimChars isWhitespace lowerChar)
open Prog (Stays StaysWith stays_free staysWith_pure staysWith_throw obeys_run_bind)

/-! ### What a `Connection` names -/

/-- **The value names a field**: between two of its commas stands the name, in upper or
lower case, with blanks around it. -/
def HeaderValue.Names (v : HeaderValue) (name : String) : Prop :=
  ∃ before token after : List Char,
    before ++ token ++ after ∈ (v.bytes.map fun b => Char.ofNat b.toNat).splitOn ',' ∧
      (∀ c ∈ before ++ after, c = ' ' ∨ c = '\t') ∧ toAsciiLowercase (String.ofList token) = name

/-- The message's `Connection` names the field. -/
def HeaderMap.NamesInConnection (m : HeaderMap) (name : String) : Prop :=
  ∃ v ∈ m.getAll header.connection, v.Names name

/-- A value of the message's `Connection` that is text names the field. -/
def HeaderMap.NamesInConnectionText (m : HeaderMap) (name : String) : Prop :=
  ∃ v ∈ m.getAll header.connection, v.toStr.isSome = true ∧ v.Names name

/-- A word with blanks around it, trimmed. -/
theorem trimChars_of_blanks {before token after : List Char} (hne : token ≠ [])
    (htoken : ∀ c ∈ token, isWhitespace c = false)
    (hbefore : ∀ c ∈ before, isWhitespace c = true)
    (hafter : ∀ c ∈ after, isWhitespace c = true) :
    trimChars (before ++ token ++ after) = token := by
  have hdrop : ∀ blanks rest : List Char, (∀ c ∈ blanks, isWhitespace c = true) →
      (∀ c ∈ rest.head?, isWhitespace c = false) →
        (blanks ++ rest).dropWhile isWhitespace = rest := by
    intro blanks rest hblanks hrest
    rw [List.dropWhile_append_of_pos hblanks]
    rcases rest with _ | ⟨c, rest⟩
    · rfl
    · rw [List.dropWhile_cons_of_neg]
      rw [hrest c rfl]
      exact Bool.false_ne_true
  obtain ⟨c, token', rfl⟩ := List.exists_cons_of_ne_nil hne
  rw [trimChars, Text.trimStartChars, List.append_assoc, hdrop before _ hbefore ?_,
    Text.trimEndChars, List.reverse_append, hdrop after.reverse _ ?_ ?_, List.reverse_reverse]
  · exact fun d hd => hafter d (List.mem_reverse.mp hd)
  · rintro d hd
    exact htoken d (List.mem_reverse.mp (List.mem_of_mem_head? hd))
  · rintro d hd
    obtain rfl : c = d := by simpa using hd
    exact htoken c List.mem_cons_self

namespace HeaderName

variable {n : HeaderName}

theorem toAsciiLowercase_text : toAsciiLowercase n.text = n.text := by
  have h := fromBytes_text n
  rw [fromBytes] at h
  split at h
  · exact congrArg text (Option.some.inj h)
  · exact absurd h (by simp)

theorem text_ne_nil : n.text.toList ≠ [] := by
  have h := (Bool.and_eq_true_iff.mp n.ok).1
  simpa using h

theorem not_isWhitespace_of_mem_text {c : Char} (h : c ∈ n.text.toList) : isWhitespace c = false := by
  have hc := List.all_eq_true.mp (Bool.and_eq_true_iff.mp n.ok).2 c h
  have hrange : 33 ≤ c.toNat ∧ c.toNat ≤ 126 := by
    simp only [Bool.or_eq_true, Bool.and_eq_true, decide_eq_true_eq, isTokenMark, beq_iff_eq,
      List.contains_iff_mem] at hc
    rcases hc with (⟨h1, h2⟩ | ⟨h1, h2⟩) | h1 | h1
    · have h1' : 97 ≤ c.toNat := h1
      have h2' : c.toNat ≤ 122 := h2
      omega
    · have h1' : 48 ≤ c.toNat := h1
      have h2' : c.toNat ≤ 57 := h2
      omega
    · have hmarks : ∀ d ∈ "!#$%&'*+-.^_|~".toList, 33 ≤ d.toNat ∧ d.toNat ≤ 126 := by decide
      exact hmarks c h1
    · omega
  rw [Bool.eq_false_iff]
  intro hspace
  simp only [isWhitespace, Bool.or_eq_true, Bool.and_eq_true, decide_eq_true_eq,
    beq_iff_eq] at hspace
  omega

end HeaderName

/-- **What a value that is text names is a token of the connection.** -/
theorem mem_connectionTokens {m : HeaderMap} {n : HeaderName}
    (h : m.NamesInConnectionText n.text) : n.text ∈ connectionTokens m := by
  obtain ⟨v, hv, htext, before, token, after, hpiece, hblanks, hname⟩ := h
  obtain ⟨s, hs⟩ := Option.isSome_iff_exists.mp htext
  have hchars : s.toList = v.bytes.map fun b => Char.ofNat b.toNat := by
    rw [HeaderValue.toStr] at hs
    split at hs
    · rw [← Option.some.inj hs, String.toList_ofList]
    · exact absurd hs (by simp)
  have hlower : token.map lowerChar = n.text.toList := by
    rw [← hname, toAsciiLowercase, String.toList_ofList, String.toList_ofList]
  have hne : token ≠ [] := fun hnil => HeaderName.text_ne_nil (by rw [← hlower, hnil]; rfl)
  have hblank : ∀ c ∈ before ++ after, isWhitespace c = true := by
    intro c hc
    rcases hblanks c hc with rfl | rfl <;> decide
  have htrim : trimChars (before ++ token ++ after) = token := by
    refine trimChars_of_blanks hne (fun c hc => ?_)
      (fun c hc => hblank c (List.mem_append_left _ hc))
      fun c hc => hblank c (List.mem_append_right _ hc)
    rw [← Text.isWhitespace_lowerChar]
    exact HeaderName.not_isWhitespace_of_mem_text
      (by rw [← hlower]; exact List.mem_map_of_mem hc)
  rw [connectionTokens, List.mem_flatMap]
  refine ⟨s, List.mem_filterMap.mpr ⟨v, hv, hs⟩, List.mem_filter.mpr ⟨?_, ?_⟩⟩
  · rw [hchars]
    exact List.mem_map.mpr ⟨_, hpiece, by rw [htrim, hname]⟩
  · rw [decide_eq_true_eq]
    intro hnil
    exact HeaderName.text_ne_nil (n := n) (by rw [hnil]; rfl)

/-! ### What an operation brings to an entry -/

variable (P : Platform)

/-- **What an operation brings to the entry of a key**: the message, and the fields it
gives of it. Of a range they are those of the representation it is part of, which has
a length of its own. -/
inductive Op.Brings : Op → String → HeaderMap → HeaderMap → Prop
  | store {w : Storing} {body : Bytes} {method vkey : String} :
    Brings (.store w body) (entryKey w.partition method (normalizeUrl P w.url) vkey)
      w.responseHeaders w.responseHeaders
  | range {w : Storing} {body : Bytes} {method vkey : String} {completeLen : Option ℕ}
      (partialContent : w.status = 206) :
    Brings (.store w body) (entryKey w.partition method (normalizeUrl P w.url) vkey)
      w.responseHeaders (representationHeaders w.responseHeaders completeLen)
  | finishStreamed {w : Storing} {writer : BlobWriter} {method vkey : String} :
    Brings (.finishStreamed w writer) (entryKey w.partition method (normalizeUrl P w.url) vkey)
      w.responseHeaders w.responseHeaders
  | confirmation {key : String} {freshHeaders : HeaderMap} {requestTime responseTime : ℕ} :
    Brings (.recordNotModified key freshHeaders requestTime responseTime) key freshHeaders
      freshHeaders

/-- The operation brings this field to the entry, in a message that does not name it as
the connection's. -/
def Op.BringsEndToEnd (named : HeaderMap → String → Prop) (op : Op) (key : String)
    (field : String × String) : Prop :=
  ∃ m given, op.Brings P key m given ∧
    (∃ f ∈ given.fields, f.1.text = field.1 ∧ f.2.toStr = some field.2) ∧ ¬named m field.1

/-- The field is neither a cookie nor one of those that are always the connection's. -/
def EndToEnd (field : String × String) : Prop :=
  field.1 ∉ ["set-cookie", "set-cookie2"] ∧ field.1 ∉ hopByHop

/-- **An entry's field came in**: an operation that wrote the entry brought it, in a
message that does not name it. -/
def CameIn (named : HeaderMap → String → Prop) (ops : List Op) (log : List Event) (key : String)
    (field : String × String) : Prop :=
  ∃ i op, Event.wrote i key ∈ log ∧ ops[i]? = some op ∧ op.BringsEndToEnd P named key field

variable {P}

/-- What storage keeps of a message. -/
theorem mem_pairs_forStorage {m : HeaderMap} {field : String × String}
    (h : field ∈ (StoredHeaders.forStorage m).pairs) : EndToEnd field ∧
      field.1 ∉ connectionTokens m ∧ ∃ f ∈ m.fields, f.1.text = field.1 ∧ f.2.toStr = some field.2 := by
  rw [StoredHeaders.forStorage, List.mem_filter, sanitize, List.mem_filterMap] at h
  obtain ⟨⟨f, hf, heq⟩, hnever⟩ := h
  obtain ⟨v, hv, rfl⟩ := Option.map_eq_some_iff.mp heq
  obtain ⟨hmem, hhop⟩ := List.mem_filter.mp hf
  rw [isHopByHop, Bool.not_eq_true', Bool.or_eq_false_iff, HeaderName.toAsciiLowercase_text] at hhop
  refine ⟨⟨fun hcookie => ?_, fun hlisted => ?_⟩, fun htoken => ?_, f, hmem, rfl, hv⟩
  · have hstored : isNeverStored f.1.text = true := by
      rcases List.mem_cons.mp hcookie with heq | hrest
      · simp only at heq
        rw [heq]
        decide
      · simp only at hrest
        rw [List.mem_singleton.mp hrest]
        decide
    rw [hstored] at hnever
    exact absurd hnever (by simp)
  · rw [List.contains_iff_mem.mpr hlisted] at hhop
    exact absurd hhop.1 (by simp)
  · rw [List.contains_iff_mem.mpr htoken] at hhop
    exact absurd hhop.2 (by simp)

/-- The connection's names are the message's own, whatever length is put in. -/
theorem connectionTokens_representationHeaders {m : HeaderMap} {completeLen : Option ℕ} :
    connectionTokens (representationHeaders m completeLen) = connectionTokens m := by
  rw [connectionTokens, connectionTokens, getAll_representationHeaders (by decide) (by decide)]

/-- A field that a stored entry comes back with is one of its pairs. -/
theorem mem_pairs_of_mem_toHeaderMap {stored : StoredHeaders} {f : HeaderName × HeaderValue}
    {name value : String} (h : f ∈ stored.toHeaderMap.fields) (hname : f.1.text = name)
    (hvalue : f.2.toStr = some value)
    (hnames : ∀ p ∈ stored.pairs, ∃ n : HeaderName, n.text = p.1) : (name, value) ∈ stored.pairs := by
  obtain ⟨p, hp, heq⟩ := List.mem_filterMap.mp h
  obtain ⟨n, hn, heq⟩ := Option.bind_eq_some_iff.mp heq
  obtain ⟨v, hv, rfl⟩ := Option.map_eq_some_iff.mp heq
  obtain ⟨n', hn'⟩ := hnames p hp
  rw [← hn', HeaderName.fromBytes_text] at hn
  obtain rfl := Option.some.inj hn
  rw [HeaderValue.toStr_of_fromStr hv] at hvalue
  obtain ⟨p1, p2⟩ := p
  obtain rfl := Option.some.inj hvalue
  simp only at hn' hname
  rwa [← hname, hn']

/-- What a confirmation leaves: stored fields, and fields of its own that its
`Connection` does not name. -/
theorem mem_apply304 {stored fresh : HeaderMap} {f : HeaderName × HeaderValue}
    (h : f ∈ (apply304 stored fresh).fields) :
    f ∈ stored.fields ∨ f ∈ fresh.fields ∧ f.1.text ∉ connectionTokens fresh := by
  rcases List.mem_append.mp h with hstored | hgiven
  · refine Or.inl ?_
    have hfold : ∀ (given : List (HeaderName × HeaderValue)) (m : HeaderMap),
        f ∈ (given.foldl (fun h g => h.remove g.1) m).fields → f ∈ m.fields := by
      intro given
      induction given with
      | nil => exact fun m hm => hm
      | cons g given ih => exact fun m hm => List.mem_of_mem_filter (ih _ hm)
    exact hfold _ _ hstored
  · obtain ⟨hfresh, hupdates⟩ := List.mem_filter.mp hgiven
    refine Or.inr ⟨hfresh, fun htoken => ?_⟩
    simp only [isHopByHop, HeaderName.toAsciiLowercase_text,
      List.contains_iff_mem.mpr htoken] at hupdates
    simp at hupdates

/-! ### What every entry holds -/

section Entries

variable {ops : List Op} {log : List Event}

/-- What is promised of the headers under a key. -/
def CleanEntry (P : Platform) (ops : List Op) (log : List Event) (key : String)
    (headers : StoredHeaders) : Prop :=
  ∀ field ∈ headers.pairs, EndToEnd field ∧
    CameIn P HeaderMap.NamesInConnectionText ops log key field

/-- What the thread of an operation may put: what it brings, and what came in before. -/
def CleanWrite (P : Platform) (ops : List Op) (log : List Event) (i : ℕ) (key : String)
    (headers : StoredHeaders) : Prop :=
  ∀ field ∈ headers.pairs, EndToEnd field ∧
    ((∃ op, ops[i]? = some op ∧ op.BringsEndToEnd P HeaderMap.NamesInConnectionText key field) ∨
      CameIn P HeaderMap.NamesInConnectionText ops log key field)

theorem cleanEntry_of_wrote {i : ℕ} {key : String} {headers : StoredHeaders}
    (hwrote : Event.wrote i key ∈ log) (h : CleanWrite P ops log i key headers) :
    CleanEntry P ops log key headers := fun field hfield => by
  obtain ⟨hend, hbrings | hcame⟩ := h field hfield
  · obtain ⟨op, hop, hbrings⟩ := hbrings
    exact ⟨hend, i, op, hwrote, hop, hbrings⟩
  · exact ⟨hend, hcame⟩

variable {i : ℕ} {op : Op} {key : String}

/-- A message as it is stored. -/
theorem cleanWrite_forStorage {m given : HeaderMap} (hop : ops[i]? = some op)
    (hbrings : op.Brings P key m given) (htokens : connectionTokens given = connectionTokens m) :
    CleanWrite P ops log i key (.forStorage given) := fun field hfield => by
  obtain ⟨hend, htoken, hf⟩ := mem_pairs_forStorage hfield
  refine ⟨hend, Or.inl ⟨op, hop, m, given, hbrings, hf, fun hnamed => ?_⟩⟩
  obtain ⟨f, -, hname, -⟩ := hf
  rw [htokens, ← hname] at htoken
  exact htoken (mem_connectionTokens (hname.symm ▸ hnamed))

/-- A message folded into an entry. -/
theorem cleanWrite_apply304 {m : HeaderMap} {stored : StoredHeaders} (hop : ops[i]? = some op)
    (hbrings : op.Brings P key m m) (hstored : CleanEntry P ops log key stored) :
    CleanWrite P ops log i key (.forStorage (apply304 stored.toHeaderMap m)) := fun field hfield => by
  obtain ⟨hend, -, f, hf, hname, hvalue⟩ := mem_pairs_forStorage hfield
  refine ⟨hend, (mem_apply304 hf).symm.imp (fun hfresh => ?_) fun hold => ?_⟩
  · refine ⟨op, hop, m, m, hbrings, ⟨f, hfresh.1, hname, hvalue⟩, fun hnamed => ?_⟩
    rw [← hname] at hnamed
    exact hfresh.2 (mem_connectionTokens hnamed)
  · refine (hstored field (mem_pairs_of_mem_toHeaderMap hold hname hvalue fun p hp => ?_)).2
    obtain ⟨-, j, op', -, -, m', given, -, ⟨g, -, hg, -⟩, -⟩ := hstored p hp
    exact ⟨g.1, hg⟩

/-- **Every operation puts what it may.** -/
theorem puts_clean (hop : ops[i]? = some op) :
    op.Puts P (CleanEntry P ops log) (CleanWrite P ops log i) fun _ _ => True := by
  cases op with
  | store w body =>
    exact ⟨⟨cleanWrite_forStorage hop .store rfl,
      fun _ _ hstored => cleanWrite_apply304 hop .store hstored⟩,
      fun hstatus _ => cleanWrite_forStorage hop (.range hstatus)
        connectionTokens_representationHeaders⟩
  | finishStreamed w writer =>
    exact ⟨cleanWrite_forStorage hop .finishStreamed rfl,
      fun _ _ hstored => cleanWrite_apply304 hop .finishStreamed hstored⟩
  | recordNotModified key freshHeaders requestTime responseTime =>
    exact fun _ hstored => cleanWrite_apply304 hop .confirmation hstored
  | grantPeerEligibility content declared => exact fun _ _ _ _ _ => trivial
  | _ => trivial

end Entries

/-! ### What leaves the store -/

/-- The header map holds no cookie. -/
def HeaderMap.Bare (h : HeaderMap) : Prop :=
  h.getAll header.setCookie = [] ∧ h.getAll header.setCookie2 = []

/-- The response is served without cookies, and so is what is said of it. -/
def StoredResponse.Bare (r : StoredResponse) : Prop := r.headers.Bare ∧ r.metadata.headers.Bare

namespace HeaderMap.Bare

variable {h : HeaderMap} {n : HeaderName} {v : HeaderValue}

theorem strip : (stripNeverStored h).Bare :=
  ⟨(getAll_remove_of_ne (by decide)).trans getAll_remove_self, getAll_remove_self⟩

theorem remove (hbare : h.Bare) : (h.remove n).Bare := by
  have hall : ∀ m : HeaderName, h.getAll m = [] → (h.remove n).getAll m = [] := by
    intro m hm
    rcases eq_or_ne m n with rfl | hne
    · exact getAll_remove_self
    · rwa [getAll_remove_of_ne hne]
  exact ⟨hall _ hbare.1, hall _ hbare.2⟩

theorem insertText (hbare : h.Bare) {text : String} (hcookie : header.setCookie ≠ n)
    (hcookie2 : header.setCookie2 ≠ n) : (Syndeo.insertText h n text).Bare := by
  rw [Syndeo.insertText]
  split
  · exact ⟨(getAll_insert_of_ne hcookie).trans hbare.1,
      (getAll_insert_of_ne hcookie2).trans hbare.2⟩
  · exact hbare

end HeaderMap.Bare

/-- What is served of bare headers is bare. -/
theorem bare_servedHeaders {metadata : StoredMeta} {age : ℕ} {range : Option Resolved}
    (h : metadata.headers.Bare) : (servedHeaders metadata age range).Bare := by
  have hsuppressed : ∀ (names : List HeaderName) (m : HeaderMap), m.Bare →
      (names.foldl HeaderMap.remove m).Bare := by
    intro names
    induction names with
    | nil => exact fun m hm => hm
    | cons n names ih => exact fun m hm => ih _ hm.remove
  have hage : (insertText (((((suppressedFields metadata).filterMap HeaderName.fromBytes).foldl
      HeaderMap.remove metadata.headers)).remove header.age) header.age (toString age)).Bare :=
    (hsuppressed _ _ h).remove.insertText (by decide) (by decide)
  rcases range with _ | resolved
  · exact hage
  · exact (hage.insertText (by decide) (by decide)).insertText (by decide) (by decide)

section Serving

variable {opts : CacheOptions} {key : String} {record : EntryRecord} {metadata : StoredMeta}
  {age : ℕ} {want : Want} {h : HeaderMap}

/-- **Whatever is reconstructed is of the kind `Q`.** -/
def Rebuilds (P : Platform) (Q : StoredResponse → Prop) : Prop :=
  ∀ key record metadata age want, StaysWith (.free CacheAct) (fun _ => True) Q
    (materialize P key record metadata age want)

/-- **A stored entry is reconstructed without cookies.** -/
theorem rebuilds_bare : Rebuilds P StoredResponse.Bare := by
  intro key record metadata age want
  have hbare : (stripNeverStored metadata.headers).Bare := .strip
  obtain ⟨range, omitBody⟩ := want
  cases omitBody with
  | true => exact staysWith_pure ⟨bare_servedHeaders hbare, hbare⟩
  | false =>
    rcases range with _ | resolved
    · exact stays_free.with.bind fun _ _ => staysWith_pure ⟨bare_servedHeaders hbare, hbare⟩
    · exact stays_free.with.bind fun _ _ => staysWith_pure ⟨bare_servedHeaders hbare, hbare⟩

variable {Q : StoredResponse → Prop}

/-- **A lookup gives what it reconstructed.** -/
theorem staysWith_lookup (hQ : Rebuilds P Q) {partition : Option String} {method url : String} :
    StaysWith (.free CacheAct) (fun _ => True) (Lookup.Each Q)
      (lookup P opts partition method url h) :=
  staysWith_lookup_of (G := fun _ _ => True) (fun _ => stays_free) (fun _ _ _ _ _ _ => stays_free)
    (fun _ _ _ => stays_free.with.mono fun _ _ _ _ _ => trivial) fun _ _ _ _ _ _ => hQ _ _ _ _ _

/-- **So does a confirmation.** -/
theorem staysWith_recordNotModified (hQ : Rebuilds P Q) {requestTime responseTime : ℕ} :
    StaysWith (.free CacheAct) (fun _ => True)
      (fun r => ∀ response ∈ (Reply.response r).responses, Q response)
      (recordNotModified P key h requestTime responseTime) := by
  refine stays_free.with.bind fun found _ => ?_
  rcases found with _ | old
  · exact staysWith_pure fun _ h => absurd h List.not_mem_nil
  · refine stays_free.with.bind fun _ _ => stays_free.with.bind fun _ _ =>
      stays_free.with.bind fun now _ => (hQ _ _ _ _ _).lift_run.bind fun r hr => ?_
    rcases r with e | response
    · simp only
      split
      · exact stays_free.with.bind fun _ _ => staysWith_throw
      · exact staysWith_throw
    · refine stays_free.with.bind fun _ _ => stays_free.with.bind fun _ _ =>
        staysWith_pure fun response' hmem => ?_
      rw [List.mem_singleton.mp hmem]
      exact hr response rfl

/-- **No operation gives a cookie away.** -/
theorem bare_program {op : Op} : (op.program P opts).Obeys (.free CacheAct)
    (fun r _ => ∀ reply, r = .ok reply → ∀ response ∈ reply.responses, response.Bare) () := by
  have hbare : ∀ {α : Type} {x : CacheM α} {reply : α → Reply} {G : α → Prop},
      StaysWith (.free CacheAct) (fun _ => True) G x →
      (∀ a, G a → ∀ response ∈ (reply a).responses, response.Bare) →
      (do pure (reply (← x)) : CacheM Reply).run.Obeys (.free CacheAct)
        (fun r _ => ∀ reply, r = .ok reply → ∀ response ∈ reply.responses, response.Bare) () := by
    intro α x reply G hx hreply
    have hpiece : StaysWith (.free CacheAct) (fun _ => True)
        (fun r : Reply => ∀ response ∈ r.responses, response.Bare)
        (do pure (reply (← x)) : CacheM Reply) :=
      StaysWith.bind hx fun a ha => staysWith_pure (hreply a ha)
    refine (hpiece () trivial).mono ?_
    intro r u hr reply' heq
    rw [heq] at hr
    exact hr.2
  have hnone : ∀ {α : Type} {x : CacheM α} {reply : α → Reply}, (∀ a, (reply a).responses = []) →
      (do pure (reply (← x)) : CacheM Reply).run.Obeys (.free CacheAct)
        (fun r _ => ∀ reply, r = .ok reply → ∀ response ∈ reply.responses, response.Bare) () := by
    intro α x reply hreply
    refine hbare stays_free.with fun a _ response hmem => ?_
    rw [hreply a] at hmem
    exact absurd hmem List.not_mem_nil
  cases op with
  | lookup partition method url requestHeaders => exact hbare (staysWith_lookup rebuilds_bare) fun _ h => h
  | recordNotModified key freshHeaders requestTime responseTime =>
    exact hbare (staysWith_recordNotModified rebuilds_bare) fun _ h => h
  | _ => exact hnone fun _ => rfl

end Serving

/-! ### In every run -/

/-- A page with a cookie and a field of the connection's, stored and looked up. -/
def cookieOps : List Op :=
  [.store { pageStore with responseHeaders := toHeaderMap [("etag", "\"1\""),
      ("cache-control", "max-age=60"), ("set-cookie", "a"), ("connection", "x-id"),
      ("x-id", "a")] } [97],
    .lookup none "GET" "http://a.test/x" ∅]

/-- Whether an operation has served one response. -/
def servedOne (c : Config CacheAct (Store × List Event) Outcome) (i : ℕ) : Bool :=
  match c.result i with
  | some (.ok reply) => reply.responses.length = 1
  | _ => false

theorem exists_reply_of_servedOne {c : Config CacheAct (Store × List Event) Outcome} {i : ℕ}
    (h : servedOne c i = true) : ∃ reply, c.result i = some (.ok reply) ∧
      reply.responses.length = 1 := by
  rw [servedOne] at h
  split at h
  · rename_i reply heq
    exact ⟨reply, heq, of_decide_eq_true h⟩
  · cases h

/-- A `Connection` that names `x-id`, and has a byte that is no text. -/
def namingValue : HeaderValue := ⟨[120, 45, 105, 100, 44, 32, 233], by decide⟩

/-- A page with a field that its `Connection` names. -/
def namedStore : Storing :=
  { pageStore with
    responseHeaders := (toHeaderMap [("etag", "\"1\""), ("cache-control", "max-age=60"),
      ("x-id", "a")]).append header.connection namingValue }

end Syndeo
