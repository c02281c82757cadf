import Syndeo.Cache.Store

/-!
# Content-addressed blobs

A body lives in a file named by the hash of its bytes, so that the same body
reached through ten URLs is there once. The file begins with a byte that says
whether what follows is compressed; a body is compressed where that is worth it,
and its address is that of the bytes before.

`Syndeo.blobFile` is the file a body is written as, and `Syndeo.readBlob` what a
file reads back as.
-/

namespace Syndeo

variable (P : Platform)

/-- `WriteReceipt`. -/
structure WriteReceipt where
  id : ContentId
  len : ℕ
  storedLen : ℕ
  compression : Compression
  newlyWritten : Bool

/-- The record of a blob as it was just written. -/
def WriteReceipt.record (r : WriteReceipt) (created : ℕ) : BlobRecord where
  len := r.len
  storedLen := r.storedLen
  compression := r.compression
  refcount := 0
  created := created

/-- `compression_tag`. -/
def compressionTag : Compression → UInt8
  | .none => 0
  | .zstd => 1

/-- `compression_from_tag`. -/
def compressionFromTag (tag : UInt8) : Compression := if tag = 1 then .zstd else .none

/-- `compress_threshold`: bodies below it are not worth compressing. -/
def compressThreshold : ℕ := 1024

/-- What a body is written as: compressed, where that makes it shorter. -/
def encodeBody (bytes : Bytes) : Bytes × Compression :=
  if compressThreshold ≤ bytes.length ∧ (P.zstdEncode bytes).length < bytes.length then
    (P.zstdEncode bytes, .zstd)
  else (bytes, .none)

/-- The file of a body. -/
def blobFile (bytes : Bytes) : Bytes :=
  compressionTag (encodeBody P bytes).2 :: (encodeBody P bytes).1

/-- The bytes in a file, before they are checked against its address; an empty
file has none, and a compressed one has none if it does not decompress. -/
def decodeFile : Bytes → Except CacheError (Option Bytes)
  | [] => .ok none
  | tag :: payload =>
    match compressionFromTag tag with
    | .none => .ok (some payload)
    | .zstd =>
      match P.zstdDecode payload with
      | some bytes => .ok (some bytes)
      | none => .error (.io "zstd")

/-- `read_compression`, on the bytes of a file. -/
def readCompression : Option Bytes → Except CacheError Compression
  | some (tag :: _) => .ok (compressionFromTag tag)
  | some [] => .error (.io "failed to fill whole buffer")
  | none => .error (.io "entity not found")

/-- `BlobStore::put`: store a body and return its address. A body that is there
already is not written again. -/
def put (bytes : Bytes) : CacheM WriteReceipt := do
  let id := P.blake3 bytes
  let there ← attempt (onFile (.exists id))
  match there with
  | .ok true =>
    let file ← onFile (.read id)
    match file with
    | none => throw (.io "entity not found")
    | some raw =>
      let file ← onFile (.read id)
      let compression ← ExceptT.mk (pure (readCompression file))
      pure ⟨id, bytes.length, raw.length, compression, false⟩
  | _ =>
    let (payload, compression) := encodeBody P bytes
    onFile (.write id (compressionTag compression :: payload))
    pure ⟨id, bytes.length, payload.length + 1, compression, true⟩

/-- `BlobWriter`: a body being written as it arrives. What has arrived is in a
file of the writer's own. -/
structure BlobWriter where
  bytes : Bytes

/-- `BlobWriter::len`. -/
def BlobWriter.len (w : BlobWriter) : ℕ := w.bytes.length

/-- `BlobWriter::write`. -/
def BlobWriter.write (w : BlobWriter) (chunk : Bytes) : BlobWriter := ⟨w.bytes ++ chunk⟩

/-- `BlobStore::adopt`: the same, for a body that arrived in pieces. -/
def adopt (writer : BlobWriter) : CacheM WriteReceipt := put P writer.bytes

/-- `BlobStore::get`: read a body back, and check that it still hashes to its
address. A file that does not is removed. -/
def get (id : ContentId) : CacheM Bytes := do
  let file ← onFile (.read id)
  match file with
  | none => throw (.missingBlob id.toHex)
  | some raw =>
    let decoded ← ExceptT.mk (pure (decodeFile P raw))
    match decoded with
    | none => throw (.missingBlob id.toHex)
    | some bytes =>
      if P.blake3 bytes = id then pure bytes
      else do
        let _ ← attempt (onFile (.remove id))
        throw (.integrity id.toHex (P.blake3 bytes).toHex)

/-- `BlobStore::remove`; a file that is not there is as good as removed. -/
def remove (id : ContentId) : CacheM Unit := do
  let _ ← onFile (.remove id)

/-- The loop of `remove_every_body` over the files it found. -/
def removeEach : List ContentId → CacheM ℕ
  | [] => pure 0
  | id :: rest => do
    let there ← onFile (.remove id)
    if there then do
      let removed ← removeEach rest
      pure (removed + 1)
    else throw (.io "entity not found")

/-- `BlobStore::remove_every_body`. -/
def removeEveryBody : CacheM ℕ := do
  let ids ← onFile .list
  removeEach ids

/-! ### A body reads back as it was written -/

/-- **Compression loses nothing**: what was encoded decodes to what it was. -/
def Platform.Lossless : Prop := ∀ bytes, P.zstdDecode (P.zstdEncode bytes) = some bytes

/-- **A body's file reads back as the body.** -/
theorem decodeFile_blobFile (h : P.Lossless) (bytes : Bytes) :
    decodeFile P (blobFile P bytes) = .ok (some bytes) := by
  rw [blobFile, encodeBody]
  split
  · simp [decodeFile, compressionTag, compressionFromTag, h bytes]
  · simp [decodeFile, compressionTag, compressionFromTag]

theorem lossless_sample : Platform.sample.Lossless := fun _ => rfl

end Syndeo
