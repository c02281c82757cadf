import Syndeo.Cache.Reading
import Syndeo.Data.Incremental

/-!
# A body stored as it arrives

A body need not be there in full for a store to begin. Its pieces go into a file
of the writer's own and through four hashes; at the end the file is taken over
under the address the hashes give, or thrown away. What decides whether it is kept,
and what is written beside it, is a second copy of the code that stores a body
which is there already.

A `Syndeo.Streaming.StreamM` is an operation with such a file. Nobody else knows
its name, so the file is a value that is handed along, and not a part of the
`Syndeo.Store`; it is taken to be written and read back without failing. With that
file the streaming code is the same program as `Syndeo.finishStreamed`, in which a
writer is only the bytes it was given (`Syndeo.Streaming.run_finishStreamed`), and
that is the program which stores those bytes at once
(`Syndeo.finishStreamed_eq_storeWithProvenance`).
-/

namespace Syndeo

open Text (eqIgnoreAsciiCase)

namespace Streaming

/-! ### Hashing in pieces -/

/-- The hashes a body goes through as it arrives. -/
structure Hashing where
  /-- `blake3::Hasher`. -/
  blake3 : Incremental UInt8 ContentId
  /-- `Sha256`, `Sha384` and `Sha512`. -/
  digest : Algorithm → Incremental UInt8 Bytes

/-- **In pieces they come to what they come to at once.** -/
structure Hashing.Agrees (H : Hashing) (P : Platform) : Prop where
  blake3 : H.blake3.Agrees P.blake3
  digest : ∀ algorithm, (H.digest algorithm).Agrees (P.digest algorithm)

/-- `sri::Digests`. -/
structure Digests where
  sha256 : Bytes
  sha384 : Bytes
  sha512 : Bytes

/-- `Digests::each`. -/
def Digests.each (d : Digests) : List (Algorithm × Bytes) :=
  [(.sha256, d.sha256), (.sha384, d.sha384), (.sha512, d.sha512)]

/-- `sri::StreamingDigests`. -/
structure StreamingDigests (H : Hashing) where
  sha256 : (H.digest .sha256).State
  sha384 : (H.digest .sha384).State
  sha512 : (H.digest .sha512).State

namespace StreamingDigests

variable {H : Hashing}

/-- `StreamingDigests::new`. -/
def new : StreamingDigests H where
  sha256 := (H.digest .sha256).init
  sha384 := (H.digest .sha384).init
  sha512 := (H.digest .sha512).init

/-- `StreamingDigests::update`. -/
def update (d : StreamingDigests H) (chunk : Bytes) : StreamingDigests H where
  sha256 := (H.digest .sha256).update d.sha256 chunk
  sha384 := (H.digest .sha384).update d.sha384 chunk
  sha512 := (H.digest .sha512).update d.sha512 chunk

/-- `StreamingDigests::finish`. -/
def finish (d : StreamingDigests H) : Digests where
  sha256 := (H.digest .sha256).result d.sha256
  sha384 := (H.digest .sha384).result d.sha384
  sha512 := (H.digest .sha512).result d.sha512

end StreamingDigests

/-! ### The writer and its file -/

/-- An operation with a file of its own, while there is one. -/
abbrev StreamM := StateT (Option Bytes) CacheM

/-- `blob::BlobWriter`, besides its file. -/
structure BlobWriter (H : Hashing) where
  hasher : H.blake3.State
  digests : StreamingDigests H
  len : ℕ

/-- `FinishedWrite`, besides its file. -/
structure FinishedWrite where
  id : ContentId
  len : ℕ
  digests : Digests

/-- `BlobStore::writer`, which is what `begin_streamed` calls. -/
def beginStreamed (H : Hashing) : StreamM (BlobWriter H) := do
  set (some ([] : Bytes))
  pure ⟨H.blake3.init, .new, 0⟩

namespace BlobWriter

variable {H : Hashing}

/-- `BlobWriter::write`. -/
def write (writer : BlobWriter H) (chunk : Bytes) : StreamM (BlobWriter H) := do
  modify (Option.map (· ++ chunk))
  pure ⟨H.blake3.update writer.hasher chunk, writer.digests.update chunk,
    writer.len + chunk.length⟩

/-- `BlobWriter::finish`. -/
def finish (writer : BlobWriter H) : FinishedWrite :=
  ⟨H.blake3.result writer.hasher, writer.len, writer.digests.finish⟩

/-- `BlobWriter::abandon`. -/
def abandon : StreamM Unit := set (none : Option Bytes)

end BlobWriter

variable (P : Platform) {H : Hashing}

/-- `BlobStore::adopt`: put the writer's file under its address, unless there is one
there already. -/
def adopt (writer : FinishedWrite) : StreamM WriteReceipt := do
  let there ← attempt (onFile (.exists writer.id))
  match there with
  | .ok true =>
    set (none : Option Bytes)
    let file ← onFile (.read writer.id)
    match file with
    | none => throw (.io "entity not found")
    | some raw =>
      let file ← onFile (.read writer.id)
      let compression ← (ExceptT.mk (pure (readCompression file)) : CacheM Compression)
      pure ⟨writer.id, writer.len, raw.length, compression, false⟩
  | _ =>
    let staged ← getThe (Option Bytes)
    match staged with
    | none => throw (.io "entity not found")
    | some raw =>
      let (payload, compression) := encodeBody P raw
      onFile (.write writer.id (compressionTag compression :: payload))
      set (none : Option Bytes)
      pure ⟨writer.id, writer.len, payload.length + 1, compression, true⟩

/-- `BlobStore::commit`. -/
def commit (writer : BlobWriter H) : StreamM (WriteReceipt × Digests) := do
  let finished := writer.finish
  let receipt ← adopt P finished
  pure (receipt, finished.digests)

/-- `Cache::storing`, around an operation with a file of its own. -/
def storing {α : Type} (x : StreamM α) : StreamM α := StateT.mk fun staged =>
  holdingShared (x.run staged)

/-- `finish_streamed`, as it is written out. -/
def finishStreamed (opts : CacheOptions) (w : Storing) (writer : BlobWriter H) :
    StreamM StoreOutcome := do
  let len := writer.len
  ask (.bump counters.bytesFromOrigin len)
  match storability P w.method w.requestHeaders w.metadata len opts with
  | .reject reason =>
    BlobWriter.abandon
    ask (.bump counters.rejects 1)
    pure (.notStored reason)
  | .store =>
    if w.status = 206 then
      BlobWriter.abandon
      ask (.bump counters.rejects 1)
      pure (.notStored "a streamed 206 is not combined")
    else
      let (receipt, digests, orphaned) ← storing do
        let (receipt, digests) ← commit P writer
        if !receipt.newlyWritten then ask (.bump counters.bytesDeduped receipt.len)
        let now ← clock
        let orphaned ← ask (.putEntry (w.record P receipt now) [(receipt.id, receipt.record now)])
        pure (receipt, digests, orphaned)
      let _ ← deleteOrphans orphaned
      let rows := digests.each.map fun row => (sriKey row.1 row.2, receipt.id)
      ask (.indexSri rows)
      ask (.bump counters.stores 1)
      if eqIgnoreAsciiCase w.method "HEAD" then
        reconcileHead P w.partition (normalizeUrl P w.url) w.requestHeaders w.responseHeaders
      let _ ← enforceBudget P opts
      pure (.stored receipt.id (!receipt.newlyWritten))

/-- A body that is begun, arrives in pieces, and is finished. -/
def streamed (H : Hashing) (opts : CacheOptions) (w : Storing) (chunks : List Bytes) :
    StreamM StoreOutcome := do
  let writer ← beginStreamed H
  let writer ← chunks.foldlM BlobWriter.write writer
  finishStreamed P opts w writer

/-! ### What the writer has come to -/

variable {P}

/-- The writer after some pieces. -/
def BlobWriter.after (H : Hashing) (chunks : List Bytes) : BlobWriter H where
  hasher := H.blake3.after chunks
  digests :=
    { sha256 := (H.digest .sha256).after chunks
      sha384 := (H.digest .sha384).after chunks
      sha512 := (H.digest .sha512).after chunks }
  len := chunks.flatten.length

theorem BlobWriter.run_write {chunks : List Bytes} {chunk : Bytes} :
    ((BlobWriter.after H chunks).write chunk).run (some chunks.flatten) =
      pure (BlobWriter.after H (chunks ++ [chunk]), some (chunks ++ [chunk]).flatten) := by
  have hwriter : (⟨H.blake3.update (H.blake3.after chunks) chunk,
      (BlobWriter.after H chunks).digests.update chunk, chunks.flatten.length + chunk.length⟩ :
        BlobWriter H) = BlobWriter.after H (chunks ++ [chunk]) := by
    simp [BlobWriter.after, StreamingDigests.update, Incremental.after_snoc]
  rw [← hwriter, List.flatten_append, List.flatten_singleton]
  rfl

/-- **Every piece gets into the file and through the hashes.** -/
theorem BlobWriter.run_foldlM_write (chunks more : List Bytes) :
    (more.foldlM BlobWriter.write (BlobWriter.after H chunks)).run (some chunks.flatten) =
      pure (BlobWriter.after H (chunks ++ more), some (chunks ++ more).flatten) := by
  induction more generalizing chunks with
  | nil => rw [List.append_nil]; rfl
  | cons chunk more ih =>
    rw [List.foldlM_cons, StateT.run_bind, BlobWriter.run_write, pure_bind, ih,
      List.append_assoc, List.singleton_append]

/-- The body that is finished: its address, its length and its digests. -/
theorem BlobWriter.finish_after (hH : H.Agrees P) (chunks : List Bytes) :
    (BlobWriter.after H chunks).finish =
      ⟨P.blake3 chunks.flatten, chunks.flatten.length,
        ⟨P.digest .sha256 chunks.flatten, P.digest .sha384 chunks.flatten,
          P.digest .sha512 chunks.flatten⟩⟩ := by
  rw [BlobWriter.finish, StreamingDigests.finish]
  simp only [BlobWriter.after, hH.blake3 chunks, hH.digest _ chunks]

/-! ### Taking the file over -/

/-- What an operation does besides goes on as if there were no file. -/
@[simp] theorem run_liftM {α : Type} (x : CacheM α) (staged : Option Bytes) :
    (liftM x : StreamM α).run staged = (fun a => (a, staged)) <$> x := by
  rw [← bind_pure_comp]
  rfl

/-- **A writer's file is put under its address as the body would be**, and is gone. -/
theorem run_adopt (body : Bytes) (digests : Digests) :
    (adopt P ⟨P.blake3 body, body.length, digests⟩).run (some body) =
      (fun receipt => (receipt, none)) <$> put P body := by
  rw [adopt, put]
  simp only [StateT.run_bind, map_bind, run_liftM, bind_map_left]
  refine bind_congr fun there => ?_
  rcases there with e | _ | _
  · simp
  · simp
  · simp only [StateT.run_bind, StateT.run_set, pure_bind, run_liftM, bind_map_left, map_bind]
    refine bind_congr fun file => ?_
    rcases file with _ | raw
    · simp
    · simp

/-- A piece of an operation may be told of under the gate or after it. -/
theorem holdingShared_map {α β : Type} (f : α → β) (x : CacheM α) :
    holdingShared (f <$> x) = f <$> holdingShared x := by
  have hattempt : attempt (f <$> x) = Except.map f <$> attempt x := by
    rw [attempt, attempt, ExceptT.run_map]
    refine ExceptT.ext ?_
    rw [ExceptT.run_map, ExceptT.run_lift, ExceptT.run_lift]
    simp only [Functor.map_map]
    rfl
  rw [holdingShared, holdingShared, hattempt]
  simp only [map_bind, bind_map_left]
  refine bind_congr fun _ => bind_congr fun r => bind_congr fun _ => ?_
  refine ExceptT.ext ?_
  rw [ExceptT.run_map]
  exact (map_pure _ _).symm

/-- The writer finished, and its file taken over. -/
theorem run_commit (hH : H.Agrees P) (chunks : List Bytes) :
    (commit P (BlobWriter.after H chunks)).run (some chunks.flatten) =
      (fun receipt => ((receipt, ⟨P.digest .sha256 chunks.flatten,
        P.digest .sha384 chunks.flatten, P.digest .sha512 chunks.flatten⟩), none)) <$>
          put P chunks.flatten := by
  rw [commit, BlobWriter.finish_after hH, StateT.run_bind, run_adopt, bind_map_left]
  exact bind_pure_comp _ _

/-- **What is done while the gate is held**, beside what a store does. -/
theorem run_storing (hH : H.Agrees P) (w : Storing) (chunks : List Bytes) :
    (storing do
      let (receipt, digests) ← commit P (BlobWriter.after H chunks)
      if !receipt.newlyWritten then ask (.bump counters.bytesDeduped receipt.len)
      let now ← clock
      let orphaned ← ask (.putEntry (w.record P receipt now) [(receipt.id, receipt.record now)])
      pure (receipt, digests, orphaned)).run (some chunks.flatten) =
      (fun r => ((r.1, ⟨P.digest .sha256 chunks.flatten, P.digest .sha384 chunks.flatten,
          P.digest .sha512 chunks.flatten⟩, r.2), none)) <$>
        storeWhole P w (put P chunks.flatten) := by
  rw [storing, storeWhole, ← holdingShared_map]
  refine congrArg holdingShared ?_
  simp only [StateT.run_bind, run_commit hH, bind_map_left, map_bind]
  refine bind_congr fun receipt => ?_
  rw [countDeduped]
  rcases receipt.newlyWritten
  · simp
  · simp

/-! ### The whole of it -/

/-- A body that is declined: its file is thrown away. -/
theorem run_declined (reason : String) (staged : Option Bytes) :
    (do
      BlobWriter.abandon
      ask (.bump counters.rejects 1)
      pure (.notStored reason) : StreamM StoreOutcome).run staged =
      (fun outcome => (outcome, none)) <$> rejected reason := by
  rw [rejected]
  simp [BlobWriter.abandon]

/-- What follows the storing, which has no file any more. -/
theorem run_afterStore (opts : CacheOptions) (w : Storing) (receipt : WriteReceipt)
    (orphaned : List ContentId) (body : Bytes) :
    (do
      let _ ← deleteOrphans orphaned
      let rows := (Digests.each ⟨P.digest .sha256 body, P.digest .sha384 body,
        P.digest .sha512 body⟩).map fun row => (sriKey row.1 row.2, receipt.id)
      ask (.indexSri rows)
      ask (.bump counters.stores 1)
      if eqIgnoreAsciiCase w.method "HEAD" then
        reconcileHead P w.partition (normalizeUrl P w.url) w.requestHeaders w.responseHeaders
      let _ ← enforceBudget P opts
      pure (.stored receipt.id (!receipt.newlyWritten)) : StreamM StoreOutcome).run none =
      (fun outcome => (outcome, none)) <$>
        afterStore P opts w receipt orphaned (sriDigests P body receipt.id) := by
  rw [afterStore]
  simp only [StateT.run_bind, run_liftM, bind_map_left, map_bind]
  refine bind_congr fun _ => bind_congr fun _ => bind_congr fun _ => ?_
  rcases eqIgnoreAsciiCase w.method "HEAD"
  · simp
  · simp

/-- **The streaming code, with its file, is the program in which a writer is the
bytes it was given**, and at its end there is no file. -/
theorem run_finishStreamed (hH : H.Agrees P) (opts : CacheOptions) (w : Storing)
    (chunks : List Bytes) :
    (finishStreamed P opts w (BlobWriter.after H chunks)).run (some chunks.flatten) =
      (fun outcome => (outcome, none)) <$>
        Syndeo.finishStreamed P opts w ⟨chunks.flatten⟩ := by
  have hlen : (BlobWriter.after H chunks).len = Syndeo.BlobWriter.len ⟨chunks.flatten⟩ := rfl
  rw [finishStreamed, Syndeo.finishStreamed, hlen]
  simp only [StateT.run_bind, run_liftM, bind_map_left, map_bind]
  refine bind_congr fun _ => ?_
  rcases storability P w.method w.requestHeaders w.metadata
    (Syndeo.BlobWriter.len ⟨chunks.flatten⟩) opts with _ | reason
  · by_cases hstatus : w.status = 206
    · rw [if_pos hstatus, if_pos hstatus]
      exact run_declined _ _
    · rw [if_neg hstatus, if_neg hstatus, StateT.run_bind, run_storing hH, bind_map_left, map_bind]
      exact bind_congr fun r => run_afterStore opts w r.1 r.2 chunks.flatten
  · exact run_declined _ _

/-- **A body that arrives in pieces**, from the beginning to the end. -/
theorem run_streamed (hH : H.Agrees P) (opts : CacheOptions) (w : Storing)
    (chunks : List Bytes) (staged : Option Bytes) :
    (streamed P H opts w chunks).run staged =
      (fun outcome => (outcome, none)) <$>
        Syndeo.finishStreamed P opts w ⟨chunks.flatten⟩ := by
  have hbegun : (beginStreamed H).run staged =
      pure (BlobWriter.after H [], some ([] : List Bytes).flatten) := rfl
  rw [streamed, StateT.run_bind, hbegun, pure_bind, StateT.run_bind,
    BlobWriter.run_foldlM_write, pure_bind, List.nil_append]
  exact run_finishStreamed hH opts w chunks

end Streaming

variable {P : Platform}

/-- **Bytes that arrived in pieces are stored as they would be at once**, unless they
are a range. -/
theorem finishStreamed_eq_storeWithProvenance {opts : CacheOptions} {w : Storing} (body : Bytes)
    (hstatus : w.status ≠ 206) :
    finishStreamed P opts w ⟨body⟩ = storeWithProvenance P opts w body := by
  rw [finishStreamed, storeWithProvenance]
  refine bind_congr fun _ => ?_
  rw [show BlobWriter.len ⟨body⟩ = body.length from rfl]
  rcases storability P w.method w.requestHeaders w.metadata body.length opts with _ | reason
  · simp only [if_neg hstatus]
    rfl
  · rfl

/-- **A body that arrives in pieces is stored as it is when it comes at once**, unless
it is a range: begun, written piece by piece and finished, it is the same program as
the store of all its bytes, with no file left over. So a cache that has nothing else
to do ends with the same index, files and counters, and says the same of it. -/
theorem streamed_as_stored {H : Streaming.Hashing} (hH : H.Agrees P) (opts : CacheOptions)
    (w : Storing) (hstatus : w.status ≠ 206) (chunks : List Bytes) :
    (Streaming.streamed P H opts w chunks).run none =
        (fun outcome => (outcome, none)) <$> storeWithProvenance P opts w chunks.flatten ∧
      ∀ (now i : ℕ) (s : Store),
        alone now i
            ((Streaming.streamed P H opts { w with provenance := .origin } chunks).run none) s =
          (alone now i (store P opts w chunks.flatten) s).map fun left =>
            (left.1.map fun outcome => (outcome, none), left.2) := by
  have hsame : ∀ w : Storing, w.status ≠ 206 →
      (Streaming.streamed P H opts w chunks).run none =
        (fun outcome => (outcome, none)) <$> storeWithProvenance P opts w chunks.flatten := by
    intro w hstatus
    rw [Streaming.run_streamed hH, finishStreamed_eq_storeWithProvenance chunks.flatten hstatus]
  refine ⟨hsame w hstatus, fun now i s => ?_⟩
  rw [hsame { w with provenance := .origin } hstatus]
  exact Concurrent.Prog.exec_run_map

/-! ### A page in two pieces -/

/-- Hashes that keep what has come, and begin at the end. -/
def sampleHashing : Streaming.Hashing where
  blake3 := .collecting Platform.sampleBlake3
  digest := fun algorithm => .collecting (Platform.sampleDigest algorithm)

theorem agrees_sampleHashing : sampleHashing.Agrees .sample :=
  ⟨Incremental.agrees_collecting _, fun _ => Incremental.agrees_collecting _⟩

/-- The page comes in two pieces, with a third that is empty. -/
theorem streamed_as_stored_page :
    pageStore.status ≠ 206 ∧
      (Streaming.streamed .sample sampleHashing .default pageStore [[97], [], [98]]).run none =
        (fun outcome => (outcome, none)) <$>
          storeWithProvenance .sample .default pageStore [97, 98] :=
  ⟨by decide, (streamed_as_stored agrees_sampleHashing .default pageStore (by decide)
    [[97], [], [98]]).1⟩

end Syndeo
