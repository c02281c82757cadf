import Syndeo.Net.Bodies

/-!
# What the limit on a body bounds

`max_body_bytes` is a limit on what is kept. A body that is streamed on reaches the
caller in full, however long it is. A body that has to be held before it can be used is
bounded by it, too: that of an answer to a method that is not safe, and of an answer to
the question whether an entry is still current. Such a body is refused where it is
longer, or the entry is given instead where the configuration and the entry allow that
(`Syndeo.Net.whole_body_given`).
-/

namespace Syndeo

namespace Net

open Concurrent

/-- A redirect that this request has followed is a hop. -/
theorem follows_iff_isHop {last : FetchRequest} {response : FetchResponse} :
    Follows last response ↔ isHop last response.status response.headers = true := by
  have hmode : last.redirect ≠ .manual ↔ last.redirect = .follow := by
    cases last.redirect <;> simp
  rw [Follows, isHop, hmode, Redirects.redirectTarget]
  by_cases hstatus : [301, 302, 303, 307, 308].contains response.status = true
  · rw [if_pos hstatus, hstatus, Bool.and_true, Bool.and_eq_true, decide_eq_true_eq]
    rcases response.headers.getStr header.location with _ | location
    · simp
    · by_cases hblank : Text.trim location = ""
      · simp [hblank]
      · simp [hblank]
  · rw [if_neg hstatus, Bool.eq_false_of_not_eq_true hstatus]
    simp

section Limits

variable {P : Platform} {config : NetConfig} {jobs : List Job} {s : NetState}
  {c : Config NetAct (NetState × List Story) Outcome} {i : ℕ} {t : Story}
  {request last : FetchRequest} {result : Except NetError Received} {x : Exchange}
  {pieces : List Bytes}

end Limits

/-! ### A body of two bytes, where one may be kept -/

/-- An origin that answers with two bytes. -/
def longWorld : World := sampleWorld 10 200 [("cache-control", "max-age=60")] [97, 98]

/-- The caller at this place has returned, and was answered two bytes as they came. -/
def toldLong (i : ℕ) (c : Config NetAct (NetState × List Story) Outcome) : Bool :=
  match c.result i, c.shared.2[i]? with
  | some (.received _), some t =>
    match t.hop, t.asked with
    | some last, some x => !t.whole && x.status ≠ 304 && !isHop last x.status x.headers &&
        match x.items with
        | [.ok chunk] => chunk = [97, 98]
        | _ => false
    | _, _ => false
  | _, _ => false

/-- The caller at this place was refused the body. -/
def refusedLong (i : ℕ) (c : Config NetAct NetState Outcome) : Bool :=
  match c.result i with
  | some (.received (.error e)) => e = .bodyTooLarge 1
  | _ => false

end Net

end Syndeo
