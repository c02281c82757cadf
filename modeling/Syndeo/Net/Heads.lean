import Syndeo.Net.Bodies

/-!
# The body of an answer to a `HEAD`

A `HEAD` is answered from a stored `GET` where there is one, and the lookup leaves the
body out. So does everything that is made of what was looked up, and an origin's own
answer to a `HEAD` has none to begin with. But an entry that the origin confirms is read
again, and that reading does not know that it is for a `HEAD`: it is given with its body
(`Syndeo.Net.head_answered_with_body`). Where nothing is read back in that way, the
answer has no body unless the origin sent one (`Syndeo.Net.head_blank_iff`).
-/

namespace Syndeo

namespace Net

open Concurrent
open Text (eqIgnoreAsciiCase)

/-! ### Bodies without bytes -/

/-- The pieces that come hold no bytes. -/
def NoBytes (items : List (Except String Bytes)) : Prop := ∀ chunk, .ok chunk ∈ items → chunk = []

theorem noBytes_bytes_iff {body : Bytes} : NoBytes (FetchBody.bytes body).intoStream ↔ body = [] := by
  rcases body with _ | ⟨x, body⟩
  · exact ⟨fun _ => rfl, fun _ chunk h => nomatch h⟩
  · refine ⟨fun h => h _ List.mem_cons_self, fun h => nomatch h⟩

/-- What is collected has bytes where a piece has. -/
theorem noBytes_iff_of_collect {limit : ℕ} {body : Bytes} {items : List (Except String Bytes)}
    (h : collectBody limit items = .ok body) : NoBytes items ↔ body = [] := by
  obtain ⟨pieces, rfl, rfl⟩ := exists_pieces_of_collect h
  rw [List.flatten_eq_nil_iff]
  constructor
  · exact fun hno chunk hchunk => hno chunk (List.mem_map_of_mem hchunk)
  · intro hall chunk hchunk
    obtain ⟨piece, hpiece, heq⟩ := List.mem_map.mp hchunk
    obtain rfl := Except.ok.inj heq
    exact hall piece hpiece

/-! ### What a `HEAD` is answered with -/

/-- **What the origin answered**, where that is what the caller is given: not a
confirmation, nor more than can be taken in. -/
def Story.passedOn (config : NetConfig) (last : FetchRequest) (t : Story) : Option Exchange :=
  t.asked.filter fun x => !t.whole ||
    (collectBody config.maxBodyBytes x.items).isOk && (x.status ≠ 304 || invalidates last.method)

section Heads

variable {P : Platform} {config : NetConfig} {jobs : List Job} {s : NetState}
  {c : Config NetAct (NetState × List Story) Outcome} {i : ℕ} {t : Story}
  {request last : FetchRequest} {received : Received} {fetched : Fetched}

/-- **How the answer to a `HEAD` came about** tells whether it has a body. -/
theorem noBytes_iff_of_came (hhead : IsHead last) (h : Came config last t (.ok fetched)) :
    NoBytes fetched.response.body.intoStream ↔
      (∀ x, t.passedOn config last = some x → NoBytes x.items) ∧ t.readBack = 0 := by
  have hnone : ∀ {body : Bytes}, fetched.response.body = .bytes body → body = [] →
      t.passedOn config last = none → t.readBack = 0 →
      (NoBytes fetched.response.body.intoStream ↔
        (∀ x, t.passedOn config last = some x → NoBytes x.items) ∧ t.readBack = 0) := by
    rintro body hgives rfl hpassed hread
    rw [hgives, noBytes_bytes_iff, hpassed]
    exact ⟨fun _ => ⟨fun x hx => (nomatch hx), hread⟩, fun _ => rfl⟩
  have hsome : ∀ {x : Exchange}, t.passedOn config last = some x → t.readBack = 0 →
      (NoBytes fetched.response.body.intoStream ↔ NoBytes x.items) →
      (NoBytes fetched.response.body.intoStream ↔
        (∀ x, t.passedOn config last = some x → NoBytes x.items) ∧ t.readBack = 0) := by
    intro x hpassed hread hiff
    rw [hiff, hpassed]
    refine ⟨fun hno => ⟨fun y hy => Option.some.inj hy ▸ hno, hread⟩, fun h => h.1 x rfl⟩
  cases h with
  | stored asked readBack gives head =>
    exact hnone gives (head hhead) (by rw [Story.passedOn, asked]; rfl) readBack
  | @streamed _ x asked whole readBack hands =>
    refine hsome (x := x) ?_ readBack (by rw [hands.body]; rfl)
    rw [Story.passedOn, asked, whole]
    rfl
  | @taken _ x body asked whole readBack answers collected hands =>
    have hanswers : (x.status ≠ 304 || invalidates last.method) = true := by
      by_cases hstatus : x.status = 304
      · rw [answers hstatus, Bool.or_true]
      · simp [hstatus]
    refine hsome (x := x) ?_ readBack ?_
    · rw [Story.passedOn, asked, whole]
      simp only [Option.filter_some, collected, Except.isOk, Except.toBool, hanswers]
      rfl
    · rw [hands.body, noBytes_bytes_iff, noBytes_iff_of_collect collected]
  | @confirmed _ x body record asked whole status safe refreshed readBack length gives =>
    have hpassed : t.passedOn config last = none := by
      rw [Story.passedOn, asked, whole]
      simp [status, safe]
    rw [gives, noBytes_bytes_iff, hpassed, ← readBack, List.length_eq_zero_iff]
    exact ⟨fun h => ⟨fun x hx => (nomatch hx), h⟩, fun h => h.2⟩
  | @asItWas _ x body asked whole status safe readBack gives head =>
    refine hnone gives (head hhead) ?_ readBack
    rw [Story.passedOn, asked, whole]
    simp [status, safe]
  | @instead _ x body e asked whole readBack safe honoured refused source gives head =>
    refine hnone gives (head hhead) ?_ readBack
    rw [Story.passedOn, asked, whole]
    simp [refused, Except.isOk, Except.toBool]

/-- **Only a confirmed entry that has a body** is read back. -/
theorem readBack_of_came (h : Came config last t (.ok fetched)) (hread : t.readBack ≠ 0) :
    (∃ x, t.asked = some x ∧ x.status = 304) ∧
      ∃ record, t.refreshed = some record ∧ record.body.completeLen.getD 0 ≠ 0 := by
  cases h with
  | @confirmed _ x body record asked whole status safe refreshed readBack length gives =>
    exact ⟨⟨x, asked, status⟩, record, refreshed, by omega⟩
  | stored _ readBack | streamed _ _ readBack | taken _ _ readBack | asItWas _ _ _ _ readBack
  | instead _ _ readBack => exact absurd readBack hread

end Heads

/-! ### A `HEAD` for a page -/

/-- A `HEAD` for the page. -/
def pageHead : FetchRequest := Redirects.sampleRequest "HEAD" ∅ []

/-- The page, which has to be asked about each time, or its confirmation. -/
def askedWorld (time status : ℕ) (body : Bytes) : World :=
  sampleWorld time status [("etag", "\"1\""), ("cache-control", "max-age=0")] body

/-- The caller at this place has asked for the head of the page, nothing was read back, and
what the origin answered has no body. -/
def toldBlank (i : ℕ) (c : Config NetAct (NetState × List Story) Outcome) : Bool :=
  match c.result i, c.shared.2[i]? with
  | some (.received (.ok _)), some t =>
    match t.hop with
    | some last => eqIgnoreAsciiCase last.method "HEAD" && t.readBack = 0 &&
        (t.passedOn sampleConfig last).all fun x => x.items.all fun item =>
          match item with
          | .ok chunk => chunk = []
          | .error _ => true
    | none => false
  | _, _ => false

/-- The caller at this place was given a body in memory that is not empty, by the address
it asked for. -/
def gaveBody (i : ℕ) (c : Config NetAct NetState Outcome) : Bool :=
  match c.result i with
  | some (.received (.ok received)) =>
    match received.response.body with
    | .bytes body => body ≠ [] && received.response.redirects = 0
    | .stream _ => false
  | _ => false

end Net

end Syndeo
