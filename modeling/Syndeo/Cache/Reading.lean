import Syndeo.Cache.AtRest

/-!
# Reading an entry back

What reading comes to when nobody else is at work, at a given time and on a disk that
does not fail (`Syndeo.alone`): the bytes that the blobs hold, or the failure of the
first one that does not come back (`Syndeo.firstLost`). Which blobs are read is a
matter of the entry and of what is wanted of it (`Syndeo.Want.spans`), and what is
read is a matter of what they hold (`Syndeo.Want.read_congr`).

A file that is gone, that is empty, or whose bytes no longer hash to its address has
lost its body (`Syndeo.LostFile`). A file that is marked as compressed and does not
decompress does not come back either, but fails in another way
(`Syndeo.lostFile_iff`).
-/

namespace Syndeo

open Concurrent Tables
open Text (eqIgnoreAsciiCase)
open Prog (Yields exec_run_bind_ok exec_run_bind_error)

variable {P : Platform} {now i : ℕ} {s : Store} {α : Type}

/-! ### Running alone, at a time -/

/-- What a piece of an operation comes to by itself. -/
def alone (now i : ℕ) (x : CacheM α) (s : Store) : Option (Except CacheError α × Store) :=
  x.run.exec (Store.perform ⟨now, none⟩ i) s

/-- What is done under the discipline of running alone is done. -/
theorem exists_alone_of_yields {x : CacheM α} {G : α → Store → Prop}
    (h : Yields (aloneDiscipline i fun {_} _ _ => True) x s G) :
    ∃ a u, alone now i x s = some (.ok a, u) ∧ G a u := by
  have hperform : ∀ {β : Type} (a : CacheAct β) s,
      (aloneDiscipline i fun {_} _ _ => True).may s a →
        ∃ b, (aloneDiscipline i fun {_} _ _ => True).sees s a b ∧
          Store.perform ⟨now, none⟩ i a s =
            some (b, (aloneDiscipline i fun {_} _ _ => True).next s a b) := by
    intro β a s hmay
    have hsome : (Store.perform ⟨now, none⟩ i a s).isSome = true := by
      cases a with
      | index a => exact hmay
      | file a => exact hmay
      | gate a => exact hmay
      | now => rfl
    obtain ⟨⟨b, s'⟩, hb⟩ := Option.isSome_iff_exists.mp hsome
    have hcalm : CalmStep i a s b s' := ⟨now, hb⟩
    obtain rfl := hcalm.after
    exact ⟨b, ⟨trivial, hcalm⟩, hb⟩
  obtain ⟨r, u, hexec, hr⟩ := Prog.Obeys.exec hperform h
  rcases r with e | a
  · exact hr.elim
  · exact ⟨a, u, hexec, hr⟩

/-- **What only reads the index** comes to the same in a store with the same index, and
leaves the store as it is. -/
theorem exists_alone_of_reads {x : CacheM α} (hx : x.run.Asks CacheAct.Reads) :
    ∃ r, ∀ t : Store, t.index = s.index → alone now i x t = some (r, t) := by
  have hgeneral : ∀ p : Prog CacheAct (Except CacheError α), p.Asks CacheAct.Reads → ∃ r,
      ∀ t : Store, t.index = s.index → p.exec (Store.perform ⟨now, none⟩ i) t = some (r, t) := by
    intro p hp
    induction p with
    | pure a => exact ⟨a, fun _ _ => rfl⟩
    | act a k ih =>
      have hstep : ∃ b, ∀ t : Store, t.index = s.index →
          Store.perform ⟨now, none⟩ i a t = some (b, t) := by
        cases a with
        | now => exact ⟨now, fun _ _ => rfl⟩
        | index a =>
          cases a with
          | getEntry key =>
            refine ⟨.ok (s.index.entries.lookup key), fun t ht => ?_⟩
            rw [← ht]
            rfl
          | variantKeys partition method url =>
            refine ⟨.ok (s.index.variantKeys partition method url), fun t ht => ?_⟩
            rw [← ht]
            rfl
          | _ => exact hp.1.elim
        | file a => exact hp.1.elim
        | gate a => exact hp.1.elim
      obtain ⟨b, hb⟩ := hstep
      obtain ⟨r, hr⟩ := ih b (hp.2 b)
      exact ⟨r, fun t ht => by rw [Prog.exec, hb t ht]; exact hr t ht⟩
  exact hgeneral x.run hx

/-! ### Reading a blob -/

/-- What a blob comes back as, out of what is in its file. -/
def readBack (P : Platform) (id : ContentId) : Option Bytes → Except CacheError Bytes
  | none => .error (.missingBlob id.toHex)
  | some raw =>
    match decodeFile P raw with
    | .error e => .error e
    | .ok none => .error (.missingBlob id.toHex)
    | .ok (some bytes) =>
      if P.blake3 bytes = id then .ok bytes else .error (.integrity id.toHex (P.blake3 bytes).toHex)

/-- **The file has lost the body**: it is gone, or has nothing in it, or what is in it
does not hash to its address. -/
inductive LostFile (P : Platform) (id : ContentId) : Option Bytes → Prop
  | gone : LostFile P id none
  | empty : LostFile P id (some [])
  | altered {raw bytes : Bytes} (hdecoded : decodeFile P raw = .ok (some bytes))
      (hhash : P.blake3 bytes ≠ id) : LostFile P id (some raw)

/-- The store, after a blob was read. A file that does not hash to its address goes. -/
def Store.afterRead (s : Store) (id : ContentId) : CacheError → Store
  | .integrity _ _ => { s with files := s.files.erase id }
  | _ => s

@[simp] theorem Store.index_afterRead {id : ContentId} {e : CacheError} :
    (s.afterRead id e).index = s.index := by cases e <;> rfl

@[simp] theorem Store.gate_afterRead {id : ContentId} {e : CacheError} :
    (s.afterRead id e).gate = s.gate := by cases e <;> rfl

theorem decodeFile_eq_none {raw : Bytes} (h : decodeFile P raw = .ok none) : raw = [] := by
  rcases raw with _ | ⟨tag, payload⟩
  · rfl
  · rw [decodeFile] at h
    split at h
    · cases h
    · split at h <;> cases h

/-- The one way a file does not decode is that it does not decompress. -/
theorem decodeFile_eq_error {raw : Bytes} {e : CacheError} (h : decodeFile P raw = .error e) :
    e = .io "zstd" := by
  rcases raw with _ | ⟨tag, payload⟩
  · cases h
  · rw [decodeFile] at h
    split at h
    · cases h
    · split at h
      · cases h
      · exact (Except.error.inj h).symm

/-- **A lost body is one that does not come back**, but for a file that does not
decompress. -/
theorem lostFile_iff {id : ContentId} {file : Option Bytes} :
    LostFile P id file ↔ ∃ e, readBack P id file = .error e ∧ e.isLostBody = true := by
  constructor
  · intro h
    cases h with
    | gone => exact ⟨_, rfl, rfl⟩
    | empty => exact ⟨_, rfl, rfl⟩
    | @altered raw bytes hdecoded hhash =>
      refine ⟨.integrity id.toHex (P.blake3 bytes).toHex, ?_, rfl⟩
      rw [readBack, hdecoded]
      exact if_neg hhash
  · rintro ⟨e, he, hlost⟩
    rcases file with _ | raw
    · exact .gone
    · rw [readBack] at he
      rcases hdecoded : decodeFile P raw with e' | (_ | bytes)
      · rw [hdecoded] at he
        obtain rfl := Except.error.inj he
        rw [decodeFile_eq_error hdecoded] at hlost
        exact nomatch hlost
      · rw [decodeFile_eq_none hdecoded]
        exact .empty
      · rw [hdecoded] at he
        simp only at he
        split at he
        · exact nomatch he
        · exact .altered hdecoded ‹_›

/-- **Reading a blob.** -/
theorem alone_get (P : Platform) (now i : ℕ) (s : Store) (id : ContentId) : alone now i (get P id) s =
    match readBack P id (s.files.lookup id) with
    | .ok bytes => some (.ok bytes, s)
    | .error e => some (.error e, s.afterRead id e) := by
  have hread : alone now i (onFile (.read id)) s = some (.ok (s.files.lookup id), s) := rfl
  rw [alone, get, exec_run_bind_ok hread]
  rcases s.files.lookup id with _ | raw
  · rfl
  · simp only [readBack]
    rcases hdecoded : decodeFile P raw with e | (_ | bytes)
    · rw [exec_run_bind_error (e := e) (u := s) rfl]
      rw [decodeFile_eq_error hdecoded]
      rfl
    · rfl
    · rw [exec_run_bind_ok (a := some bytes) (u := s) rfl]
      simp only
      split
      · rfl
      · rfl

/-! ### Reading an entry -/

/-- The first of some blobs that does not come back, and why. -/
def firstLost (P : Platform) (files : Table ContentId Bytes) :
    List ContentId → Option (ContentId × CacheError)
  | [] => none
  | id :: rest =>
    match readBack P id (files.lookup id) with
    | .ok _ => firstLost P files rest
    | .error e => some (id, e)

/-- The segments that reading up to `stop` comes to, from the cursor on. -/
def spanned (stop : ℕ) : List Segment → ℕ → List Segment
  | [], _ => []
  | seg :: rest, cursor =>
    if seg.stop ≤ cursor then spanned stop rest cursor
    else if cursor < seg.start ∨ stop ≤ seg.start then []
    else if stop ≤ min stop seg.stop then [seg]
    else seg :: spanned stop rest (min stop seg.stop)

/-- How far it gets. -/
def reached (stop : ℕ) : List Segment → ℕ → ℕ
  | [], cursor => cursor
  | seg :: rest, cursor =>
    if seg.stop ≤ cursor then reached stop rest cursor
    else if cursor < seg.start ∨ stop ≤ seg.start then cursor
    else if stop ≤ min stop seg.stop then min stop seg.stop
    else reached stop rest (min stop seg.stop)

/-- What is read, where each blob holds what `held` says. -/
def stitched (held : ContentId → Bytes) (stop : ℕ) : List Segment → ℕ → Bytes → Bytes
  | [], _, out => out
  | seg :: rest, cursor, out =>
    if seg.stop ≤ cursor then stitched held stop rest cursor out
    else if cursor < seg.start ∨ stop ≤ seg.start then out
    else if stop ≤ min stop seg.stop then out ++ segmentPart seg cursor stop (held seg.content)
    else stitched held stop rest (min stop seg.stop)
      (out ++ segmentPart seg cursor stop (held seg.content))

/-- What each blob holds, by the files. -/
def heldIn (P : Platform) (files : Table ContentId Bytes) (id : ContentId) : Bytes :=
  (readBack P id (files.lookup id)).toOption.getD []

/-- The blobs that reading `[first, stop)` out of a body reads, in order. -/
def StoredBody.spans (b : StoredBody) (first stop : ℕ) : List ContentId :=
  match b with
  | .Complete content _ => [content]
  | .Partial _ segments => (spanned stop segments first).map Segment.content

/-- The body holds all of `[first, stop)`, as far as reading it can tell. -/
def StoredBody.reaches (b : StoredBody) (first stop : ℕ) : Prop :=
  match b with
  | .Complete _ _ => True
  | .Partial _ segments => ¬reached stop segments first < stop

/-- What that reads. -/
def StoredBody.read (b : StoredBody) (held : ContentId → Bytes) (first stop : ℕ) : Bytes :=
  match b with
  | .Complete content _ =>
    let body := held content
    let last := min stop body.length
    (body.take last).drop (min first last)
  | .Partial _ segments => stitched held stop segments first []

section Segments

variable {segments : List Segment} {stop cursor : ℕ} {out : Bytes}

theorem stitched_congr {held held' : ContentId → Bytes}
    (h : ∀ c ∈ (spanned stop segments cursor).map Segment.content, held c = held' c) :
    stitched held stop segments cursor out = stitched held' stop segments cursor out := by
  induction segments generalizing cursor out with
  | nil => rfl
  | cons seg rest ih =>
    rw [spanned] at h
    rw [stitched, stitched]
    split
    · rename_i hbehind
      rw [if_pos hbehind] at h
      exact ih h
    · rename_i hbehind
      rw [if_neg hbehind] at h
      split
      · rfl
      · rename_i hgap
        rw [if_neg hgap] at h
        split
        · rename_i hend
          rw [if_pos hend] at h
          rw [h seg.content (by simp)]
        · rename_i hend
          rw [if_neg hend] at h
          rw [h seg.content (by simp)]
          exact ih fun c hc => h c (List.mem_cons_of_mem _ hc)

/-- What is read is a matter of what the blobs that are read hold. -/
theorem StoredBody.read_congr {b : StoredBody} {held held' : ContentId → Bytes} {first stop : ℕ}
    (h : ∀ c ∈ b.spans first stop, held c = held' c) :
    b.read held first stop = b.read held' first stop := by
  cases b with
  | Complete content len => rw [read, read, h content List.mem_cons_self]
  | Partial completeLen segments => exact stitched_congr h

/-- **Reading across segments** gets as far as the segments reach, or to the first that
does not come back. -/
theorem alone_readSegments (P : Platform) (now i : ℕ) (s : Store) (stop : ℕ)
    (segments : List Segment) (cursor : ℕ) (out : Bytes) :
    (∃ id e, firstLost P s.files ((spanned stop segments cursor).map Segment.content) =
        some (id, e) ∧
      alone now i (readSegments P stop segments cursor out) s = some (.error e, s.afterRead id e)) ∨
    (firstLost P s.files ((spanned stop segments cursor).map Segment.content) = none ∧
      alone now i (readSegments P stop segments cursor out) s =
        some (.ok (stitched (heldIn P s.files) stop segments cursor out,
          reached stop segments cursor), s)) := by
  induction segments generalizing cursor out with
  | nil => exact Or.inr ⟨rfl, rfl⟩
  | cons seg rest ih =>
    rw [spanned, reached, stitched, readSegments]
    by_cases hbehind : seg.stop ≤ cursor
    · rw [if_pos hbehind, if_pos hbehind, if_pos hbehind, if_pos hbehind]
      exact ih cursor out
    · rw [if_neg hbehind, if_neg hbehind, if_neg hbehind, if_neg hbehind]
      by_cases hgap : cursor < seg.start ∨ stop ≤ seg.start
      · rw [if_pos hgap, if_pos hgap, if_pos hgap, if_pos hgap]
        exact Or.inr ⟨rfl, rfl⟩
      · rw [if_neg hgap, if_neg hgap, if_neg hgap, if_neg hgap]
        have hget := alone_get P now i s seg.content
        rcases hback : readBack P seg.content (s.files.lookup seg.content) with e | bytes
        · rw [hback] at hget
          have hlost : ∀ more : List ContentId,
              firstLost P s.files (seg.content :: more) = some (seg.content, e) := fun more => by
            rw [firstLost, hback]
          refine Or.inl ⟨seg.content, e, ?_, exec_run_bind_error hget⟩
          split
          · exact hlost []
          · exact hlost _
        · rw [hback] at hget
          have hkeeps : ∀ more : List ContentId,
              firstLost P s.files (seg.content :: more) = firstLost P s.files more := fun more => by
            rw [firstLost, hback]
          have hheld : heldIn P s.files seg.content = bytes := by
            rw [heldIn, hback]
            rfl
          rw [alone, exec_run_bind_ok hget, hheld]
          by_cases hend : stop ≤ min stop seg.stop
          · simp only [if_pos hend]
            exact Or.inr ⟨hkeeps [], rfl⟩
          · simp only [if_neg hend]
            rw [List.map_cons, hkeeps]
            exact ih _ _

end Segments

/-- **Reading a run out of an entry.** -/
theorem alone_readSpan (P : Platform) (now i : ℕ) (s : Store) (record : EntryRecord)
    (first stop : ℕ) :
    (∃ id e, firstLost P s.files (record.body.spans first stop) = some (id, e) ∧
      alone now i (readSpan P record first stop) s = some (.error e, s.afterRead id e)) ∨
    (firstLost P s.files (record.body.spans first stop) = none ∧
      ((¬record.body.reaches first stop ∧
          ∃ e, alone now i (readSpan P record first stop) s = some (.error e, s)) ∨
        (record.body.reaches first stop ∧ alone now i (readSpan P record first stop) s =
          some (.ok (record.body.read (heldIn P s.files) first stop), s)))) := by
  rw [readSpan]
  rcases record.body with ⟨content, len⟩ | ⟨completeLen, segments⟩
  · have hget := alone_get P now i s content
    simp only [StoredBody.spans, firstLost, StoredBody.read, heldIn]
    rcases hback : readBack P content (s.files.lookup content) with e | bytes
    · rw [hback] at hget
      exact Or.inl ⟨content, e, rfl, exec_run_bind_error hget⟩
    · rw [hback] at hget
      exact Or.inr ⟨rfl, Or.inr ⟨trivial, exec_run_bind_ok hget⟩⟩
  · simp only [StoredBody.spans]
    rcases alone_readSegments P now i s stop segments first [] with ⟨id, e, hlost, hread⟩ | ⟨hnone, hread⟩
    · exact Or.inl ⟨id, e, hlost, exec_run_bind_error hread⟩
    · refine Or.inr ⟨hnone, ?_⟩
      rw [alone, exec_run_bind_ok hread]
      simp only [StoredBody.reaches]
      split
      · exact Or.inl ⟨not_not_intro ‹_›, _, rfl⟩
      · exact Or.inr ⟨‹_›, rfl⟩

/-! ### What a lookup reads -/

/-- The bytes that are wanted of an entry, if any are. -/
def Want.span (want : Want) (record : EntryRecord) : Option (ℕ × ℕ) :=
  if want.omitBody then none
  else some ((want.range.map Resolved.halfOpen).getD (0, record.body.completeLen.getD 0))

/-- The blobs that are read for them. -/
def Want.spans (want : Want) (record : EntryRecord) : List ContentId :=
  match want.span record with
  | none => []
  | some (first, stop) => record.body.spans first stop

/-- **The blobs that a lookup of an entry reads**, in order: none for a `HEAD`. -/
def bodiesRead (P : Platform) (method : String) (requestHeaders : HeaderMap)
    (record : EntryRecord) : List ContentId :=
  let head := eqIgnoreAsciiCase method "HEAD"
  match wantedBytes P requestHeaders record record.metadata with
  | .whole => Want.spans ⟨none, head⟩ record
  | .range resolved => Want.spans ⟨some resolved, head⟩ record
  | .unusable _ => []

/-- The response of a lookup that serves the entry. -/
def Lookup.response : Lookup → Option StoredResponse
  | .miss _ => none
  | .fresh response => some response
  | .stale response _ _ => some response
  | .revalidate response _ _ _ => some response

section Materialize

variable {key : String} {record : EntryRecord} {metadata : StoredMeta} {age : ℕ} {want : Want}

/-- The bytes that are wanted. -/
def Want.read (want : Want) (record : EntryRecord) (held : ContentId → Bytes) : Bytes :=
  match want.span record with
  | none => []
  | some (first, stop) => record.body.read held first stop

theorem Want.read_congr {held held' : ContentId → Bytes}
    (h : ∀ c ∈ want.spans record, held c = held' c) :
    want.read record held = want.read record held' := by
  rw [Want.spans] at h
  rw [Want.read, Want.read]
  split
  · rfl
  · rename_i first stop hspan
    rw [hspan] at h
    exact StoredBody.read_congr h

/-- The entry holds what is wanted of it, as far as reading it can tell. -/
def Want.reaches (want : Want) (record : EntryRecord) : Prop :=
  ∀ span ∈ want.span record, record.body.reaches span.1 span.2

/-- **The response an entry stands for**, if its blobs come back: it is made of the bytes
that were read. -/
theorem exists_alone_materialize (P : Platform) (key : String) (record : EntryRecord)
    (metadata : StoredMeta) (age : ℕ) (want : Want) (now i : ℕ) :
    ∃ make : Bytes → StoredResponse, (∀ bytes, (make bytes).key = key) ∧ ∀ s,
      (∃ id e, firstLost P s.files (want.spans record) = some (id, e) ∧
        alone now i (materialize P key record metadata age want) s =
          some (.error e, s.afterRead id e)) ∨
      (firstLost P s.files (want.spans record) = none ∧
        ((¬want.reaches record ∧
            ∃ e, alone now i (materialize P key record metadata age want) s = some (.error e, s)) ∨
          (want.reaches record ∧ alone now i (materialize P key record metadata age want) s =
            some (.ok (make (want.read record (heldIn P s.files))), s)))) := by
  obtain ⟨make, hkey, hmake⟩ : ∃ make : Bytes → StoredResponse, (∀ bytes, (make bytes).key = key) ∧
      materialize P key record metadata age want = (match want.span record with
        | none => pure []
        | some (first, stop) => readSpan P record first stop) >>= fun body => pure (make body) := by
    obtain ⟨range, omitBody⟩ := want
    cases omitBody with
    | true => exact ⟨_, fun _ => rfl, rfl⟩
    | false =>
      rcases range with _ | resolved
      · exact ⟨_, fun _ => rfl, rfl⟩
      · exact ⟨_, fun _ => rfl, rfl⟩
  refine ⟨make, hkey, fun s => ?_⟩
  rw [hmake, Want.spans, Want.reaches, Want.read]
  rcases want.span record with _ | ⟨first, stop⟩
  · exact Or.inr ⟨rfl, Or.inr ⟨nofun, rfl⟩⟩
  · rcases alone_readSpan P now i s record first stop with
      ⟨id, e, hlost, hread⟩ | ⟨hnone, ⟨hshort, e, hread⟩ | ⟨hall, hread⟩⟩
    · exact Or.inl ⟨id, e, hlost, exec_run_bind_error hread⟩
    · exact Or.inr ⟨hnone, Or.inl ⟨fun h => hshort (h (first, stop) rfl), e,
        exec_run_bind_error hread⟩⟩
    · refine Or.inr ⟨hnone, Or.inr ⟨?_, exec_run_bind_ok hread⟩⟩
      rintro span ⟨⟩
      exact hall

end Materialize

end Syndeo
