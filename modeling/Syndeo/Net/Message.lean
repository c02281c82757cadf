import Syndeo.Cache.Sri
import Syndeo.Cache.Vary

/-!
# What the network process is asked, and what it answers

A body is in memory, or on its way: a stream of pieces, any of which can be a
failure instead. `Syndeo.FetchBody.collect` waits for all of it.
-/

namespace Syndeo

/-- `Source`. -/
inductive Source
  | cache
  | cacheStale
  | revalidated
  | origin
  | staleOnError
  | peer
  | passThrough
  deriving DecidableEq

/-- `Source::as_str`. -/
def Source.asStr : Source → String
  | .cache => "cache"
  | .cacheStale => "cache-stale"
  | .revalidated => "revalidated"
  | .origin => "origin"
  | .staleOnError => "stale-on-error"
  | .peer => "peer"
  | .passThrough => "pass-through"

/-- `Protocol`. -/
inductive Protocol
  | none
  | http1
  | http2
  | http3
  deriving DecidableEq

/-- `Protocol::as_str`. -/
def Protocol.asStr : Protocol → String
  | .none => "-"
  | .http1 => "http/1.1"
  | .http2 => "h2"
  | .http3 => "h3"

/-- `RedirectMode`. -/
inductive RedirectMode
  | follow
  | manual
  deriving DecidableEq

/-- `FetchRequest`. -/
structure FetchRequest where
  method : String
  url : String
  headers : HeaderMap
  body : Bytes
  integrity : Option Integrity
  partition : Option String
  redirect : RedirectMode
  deriving DecidableEq

/-- `FetchBody`. A failure is the text of the error. -/
inductive FetchBody
  | bytes (b : Bytes)
  | stream (items : List (Except String Bytes))

/-- `FetchResponse`. -/
structure FetchResponse where
  status : ℕ
  headers : HeaderMap
  body : FetchBody
  source : Source
  elapsedMs : ℕ
  content : Option ContentId
  finalUrl : String
  redirects : ℕ
  protocol : Protocol

namespace FetchBody

/-- The loop of `FetchBody::collect`. -/
def collectStream (out : Bytes) : List (Except String Bytes) → Except String Bytes
  | [] => .ok out
  | .ok chunk :: rest => collectStream (out ++ chunk) rest
  | .error e :: _ => .error e

/-- `FetchBody::collect`. -/
def collect : FetchBody → Except String Bytes
  | .bytes b => .ok b
  | .stream items => collectStream [] items

/-- `FetchBody::into_stream`. -/
def intoStream : FetchBody → List (Except String Bytes)
  | .bytes b => if b.isEmpty then [] else [.ok b]
  | .stream items => items

/-- What is collected is all the pieces, and none of them is a failure. -/
theorem collectStream_eq_ok_iff {out whole : Bytes} {items : List (Except String Bytes)} :
    collectStream out items = .ok whole ↔
      ∃ pieces : List Bytes, items = pieces.map .ok ∧ whole = out ++ pieces.flatten := by
  induction items generalizing out with
  | nil =>
    rw [collectStream, Except.ok.injEq]
    constructor
    · rintro rfl
      exact ⟨[], rfl, (List.append_nil _).symm⟩
    · rintro ⟨pieces, hpieces, rfl⟩
      rw [List.map_eq_nil_iff.mp hpieces.symm, List.flatten_nil, List.append_nil]
  | cons item items ih =>
    rcases item with e | chunk
    · rw [collectStream]
      refine ⟨fun h => absurd h (by simp), ?_⟩
      rintro ⟨_ | ⟨piece, pieces⟩, hpieces, -⟩
      · exact absurd hpieces (by simp)
      · exact absurd (List.cons.inj hpieces).1 (by simp)
    · rw [collectStream, ih]
      constructor
      · rintro ⟨pieces, rfl, rfl⟩
        exact ⟨chunk :: pieces, rfl, by rw [List.flatten_cons, List.append_assoc]⟩
      · rintro ⟨_ | ⟨piece, pieces⟩, hpieces, rfl⟩
        · exact absurd hpieces (by simp)
        · obtain ⟨hpiece, hrest⟩ := List.cons.inj hpieces
          obtain rfl := Except.ok.inj hpiece
          exact ⟨pieces, hrest, by rw [List.flatten_cons, List.append_assoc]⟩

/-- **Streaming a body makes no difference to its bytes.** -/
theorem collectStream_intoStream (self : FetchBody) :
    collectStream [] self.intoStream = self.collect := by
  cases self with
  | bytes b =>
    rcases b with _ | ⟨x, b⟩
    · rfl
    · rfl
  | stream items => rfl

end FetchBody

end Syndeo
