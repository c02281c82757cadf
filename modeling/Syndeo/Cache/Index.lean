import Syndeo.Cache.Record
import Syndeo.Data.Table

/-!
# The index

A map from request to content address, and one from content address to a record
of the blob with a reference count. The separation of the two is what gives
dedupe: an entry names addresses, and an address outlives any one entry that
names it for as long as another does.

Every method of the source's `Index` is one transaction, and here one function of
the tables; `Syndeo.IndexAct` lists the methods, and `Syndeo.IndexAct.run` says
what each does. A transaction that fails leaves the tables as they were. The
encoding of the records in the database is not modelled: a table holds the
records themselves.
-/

namespace Syndeo

open Tables

/-- `CacheError`, as far as the cache's own operations fail. -/
inductive CacheError
  | io (message : String)
  | index (message : String)
  | missingBlob (what : String)
  | integrity (expected actual : String)
  deriving DecidableEq

/-- `CacheError::is_lost_body`: a stored body that could not be read back as the
bytes it was stored as. -/
def CacheError.isLostBody : CacheError → Bool
  | .missingBlob _ => true
  | .integrity _ _ => true
  | _ => false

/-- The tables. -/
structure Index where
  entries : Table String EntryRecord
  blobs : Table ContentId BlobRecord
  variants : Table String (List String)
  counters : Table String ℕ
  sri : Table Bytes ContentId
  peerEligible : Table ContentId (List Bytes)

namespace Index

/-- An index nothing was written to. -/
def empty : Index := ⟨∅, ∅, ∅, ∅, ∅, ∅⟩

/-! ### References -/

/-- The largest number a `u32` holds, where a reference count stays. -/
def maxRefcount : ℕ := 2 ^ 32 - 1

/-- `release`: drop one reference, and say whether it was the last. -/
def release (blobs : Table ContentId BlobRecord) (c : ContentId) :
    Table ContentId BlobRecord × Bool :=
  match blobs.lookup c with
  | some b => (blobs.insert c { b with refcount := b.refcount - 1 }, b.refcount - 1 = 0)
  | none => (blobs, false)

/-- Drop a reference to each of these blobs; the orphaned ones are returned. -/
def releaseAll : List ContentId → Table ContentId BlobRecord →
    Table ContentId BlobRecord × List ContentId
  | [], blobs => (blobs, [])
  | c :: cs, blobs =>
    let (blobs, zero) := release blobs c
    let (blobs, orphaned) := releaseAll cs blobs
    (blobs, if zero then c :: orphaned else orphaned)

/-- Take a reference to a blob. One that has no record yet gets the record that
came with it, and it is an error if none did. -/
def take (newBlobs : List (ContentId × BlobRecord)) (blobs : Table ContentId BlobRecord)
    (c : ContentId) : Except CacheError (Table ContentId BlobRecord) :=
  match blobs.lookup c with
  | some b => .ok (blobs.insert c { b with refcount := min (b.refcount + 1) maxRefcount })
  | none =>
    match newBlobs.find? fun nb => nb.1 = c with
    | some (_, b) => .ok (blobs.insert c { b with refcount := 1 })
    | none => .error (.missingBlob c.toHex)

/-- Take a reference to each of these blobs. -/
def takeAll (newBlobs : List (ContentId × BlobRecord)) :
    List ContentId → Table ContentId BlobRecord → Except CacheError (Table ContentId BlobRecord)
  | [], blobs => .ok blobs
  | c :: cs, blobs => (take newBlobs blobs c).bind (takeAll newBlobs cs)

/-! ### Entries -/

/-- What the entry under a key holds, if there is one. -/
def heldAt (ix : Index) (key : String) : List ContentId :=
  match ix.entries.lookup key with
  | some r => r.contents
  | none => []

/-- `Index::put_entry`: write an entry, list it as a variant of its URL, and take
a reference on every blob it names. -/
def putEntry (record : EntryRecord) (newBlobs : List (ContentId × BlobRecord)) (ix : Index) :
    Except CacheError (List ContentId × Index) :=
  let wanted := record.contents
  let held := ix.heldAt record.key
  -- what the replaced entry held is released, except for what is held on to
  let (blobs, orphaned) := releaseAll (held.filter (· ∉ wanted)) ix.blobs
  (takeAll newBlobs (wanted.filter (· ∉ held)) blobs).map fun blobs =>
    let keys := (ix.variants.lookup record.pkey).getD []
    (orphaned, { ix with
      entries := ix.entries.insert record.key record
      blobs := blobs
      variants :=
        if record.varyKey ∈ keys then ix.variants
        else ix.variants.insert record.pkey (keys ++ [record.varyKey]) })

/-- `Index::refresh_entry`: overwrite an entry without touching references. -/
def refreshEntry (record : EntryRecord) (ix : Index) : Index :=
  { ix with entries := ix.entries.insert record.key record }

/-- `Index::variant_keys`. -/
def variantKeys (partition : Option String) (method url : String) (ix : Index) : List String :=
  (ix.variants.lookup (primaryKey partition method url)).getD []

/-- Take an entry out and release what it held; its URL's variant list is the
caller's. -/
def removeKey (key : String) (ix : Index) : List ContentId × Index :=
  let (blobs, orphaned) := releaseAll (ix.heldAt key) ix.blobs
  (orphaned, { ix with entries := ix.entries.erase key, blobs := blobs })

/-- The loop of `Index::invalidate` over the variants of a URL. -/
def removeVariants (pkey : String) : List String → Index → List ContentId × Index
  | [], ix => ([], ix)
  | varyKey :: keys, ix =>
    let (orphaned, ix) := removeKey (variantKey pkey varyKey) ix
    let (more, ix) := removeVariants pkey keys ix
    (orphaned ++ more, ix)

/-- `Index::invalidate`: drop every variant of a URL. -/
def invalidate (partition : Option String) (method url : String) (ix : Index) :
    List ContentId × Index :=
  let pkey := primaryKey partition method url
  let (orphaned, ix) := removeVariants pkey ((ix.variants.lookup pkey).getD []) ix
  (orphaned, { ix with variants := ix.variants.erase pkey })

/-- `remove_entry_in`: drop one entry, and take it off its URL's variant list. -/
def removeEntry (key : String) (ix : Index) : List ContentId × Index :=
  match ix.entries.lookup key with
  | none => ([], ix)
  | some record =>
    let (orphaned, ix) := removeKey key ix
    let keys := ((ix.variants.lookup record.pkey).getD []).filter (· ≠ record.varyKey)
    (orphaned, { ix with
      variants :=
        if keys = [] then ix.variants.erase record.pkey
        else ix.variants.insert record.pkey keys })

/-- `Index::drop_entry_if_unchanged`. -/
def dropEntryIfUnchanged (key : String) (expected : EntryRecord) (revokeSharing : Bool)
    (ix : Index) : Option (List ContentId) × Index :=
  if ix.entries.lookup key = some expected then
    let (orphaned, ix) := removeEntry key ix
    (some orphaned,
      if revokeSharing then
        { ix with peerEligible := expected.contents.foldl (fun t c => t.erase c) ix.peerEligible }
      else ix)
  else (none, ix)

/-- Add to one counter. -/
def addCounter (counters : Table String ℕ) (name : String) (n : ℕ) : Table String ℕ :=
  counters.insert name (saturatingAdd ((counters.lookup name).getD 0) n)

/-- `Index::bump`. -/
def bump (name : String) (n : ℕ) (ix : Index) : Index :=
  { ix with counters := addCounter ix.counters name n }

/-- The use stamp that a served request leaves on an entry. -/
def touched (now : ℕ) (record : EntryRecord) : EntryRecord :=
  { record with lastUsed := now, hits := record.hits + 1 }

/-- `Index::record_access`: everything one served request changes. -/
def recordAccess (key : Option String) (now : ℕ) (tally : List (String × ℕ)) (ix : Index) :
    Index :=
  { ix with
    entries := match key with
      | some key =>
        match ix.entries.lookup key with
        | some record => ix.entries.insert key (touched now record)
        | none => ix.entries
      | none => ix.entries
    counters := tally.foldl (fun t by_ => addCounter t by_.1 by_.2) ix.counters }

/-- `Index::all_entries`, in the order of their keys. -/
def allEntries (ix : Index) : List (String × EntryRecord) :=
  (rows ix.entries).insertionSort fun a b => a.1 ≤ b.1

/-- `Index::clear`: forget every response; how many there were. -/
def clear (ix : Index) : ℕ × Index :=
  ((rows ix.entries).length,
    { ix with entries := ∅, blobs := ∅, variants := ∅, sri := ∅, peerEligible := ∅ })

/-! ### Blobs -/

/-- `Index::blob_totals`: distinct blobs, unique bytes, bytes on disk, and the
bytes as they are referred to. -/
def blobTotals (ix : Index) : ℕ × ℕ × ℕ × ℕ :=
  let referenced := ((rows ix.blobs).map Prod.snd).filter fun b => b.refcount ≠ 0
  (referenced.length, (referenced.map BlobRecord.len).sum,
    (referenced.map BlobRecord.storedLen).sum, (referenced.map fun b => b.len * b.refcount).sum)

/-- `Index::orphaned_blobs`, in the order of their addresses. -/
def orphanedBlobs (ix : Index) : List ContentId :=
  (((rows ix.blobs).filter fun row => row.2.refcount = 0).map Prod.fst).insertionSort (· ≤ ·)

/-- `Index::forget_blob_if_unreferenced`: forget a blob nothing refers to, and say
whether its file may go. -/
def forgetBlobIfUnreferenced (id : ContentId) (ix : Index) : Bool × Index :=
  match ix.blobs.lookup id with
  | some b =>
    if b.refcount = 0 then
      (true, { ix with blobs := ix.blobs.erase id, peerEligible := ix.peerEligible.erase id })
    else (false, ix)
  | none => (true, { ix with peerEligible := ix.peerEligible.erase id })

/-! ### Peers and integrity -/

/-- The order of byte strings. -/
def bytesLe : Bytes → Bytes → Bool
  | [], _ => true
  | _ :: _, [] => false
  | a :: as, b :: bs => a < b || (a = b && bytesLe as bs)

/-- `Index::grant_eligibility`: record that these verified hashes name a blob;
those that did not before are returned. -/
def grantEligibility (id : ContentId) (verified : List Bytes) (ix : Index) : List Bytes × Index :=
  if (ix.blobs.lookup id).all (fun b => b.refcount = 0) then ([], ix)
  else
    let keys := (ix.peerEligible.lookup id).getD []
    let fresh := dedupAdjacent ((verified.filter (· ∉ keys)).insertionSort fun a b => bytesLe a b)
    if fresh = [] then ([], ix)
    else (fresh, { ix with
      peerEligible :=
        ix.peerEligible.insert id ((keys ++ fresh).insertionSort fun a b => bytesLe a b) })

/-- `Index::eligible_hashes`. -/
def eligibleHashes (id : ContentId) (ix : Index) : List Bytes :=
  (ix.peerEligible.lookup id).getD []

/-- `Index::index_sri`. -/
def indexSri (digests : List (Bytes × ContentId)) (ix : Index) : Index :=
  { ix with sri := digests.foldl (fun t d => t.insert d.1 d.2) ix.sri }

/-- The reading half of `Index::prune_sri`: the rows whose blob has no record. -/
def staleSri (ix : Index) : List Bytes :=
  ((rows ix.sri).filter fun row => (ix.blobs.lookup row.2).isNone).map Prod.fst

/-- The writing half of `Index::prune_sri`. -/
def dropSri (stale : List Bytes) (ix : Index) : Index :=
  { ix with sri := stale.foldl (fun t key => t.erase key) ix.sri }

end Index

/-! ### The transactions -/

/-- **The methods of the index**, each one transaction, with the type of its
answer. -/
inductive IndexAct : Type → Type
  | getEntry (key : String) : IndexAct (Option EntryRecord)
  | putEntry (record : EntryRecord) (newBlobs : List (ContentId × BlobRecord)) :
      IndexAct (List ContentId)
  | refreshEntry (record : EntryRecord) : IndexAct Unit
  | variantKeys (partition : Option String) (method url : String) : IndexAct (List String)
  | invalidate (partition : Option String) (method url : String) : IndexAct (List ContentId)
  | removeEntry (key : String) : IndexAct (List ContentId)
  | dropBrokenEntry (key : String) (expected : EntryRecord) : IndexAct (Option (List ContentId))
  | dropEntryHolding (key : String) (expected : EntryRecord) : IndexAct (Option (List ContentId))
  | recordAccess (key : Option String) (now : ℕ) (tally : List (String × ℕ)) : IndexAct Unit
  | allEntries : IndexAct (List (String × EntryRecord))
  | getBlob (id : ContentId) : IndexAct (Option BlobRecord)
  | blobTotals : IndexAct (ℕ × ℕ × ℕ × ℕ)
  | clear : IndexAct ℕ
  | orphanedBlobs : IndexAct (List ContentId)
  | forgetBlobIfUnreferenced (id : ContentId) : IndexAct Bool
  | grantEligibility (id : ContentId) (verified : List Bytes) : IndexAct (List Bytes)
  | eligibleHashes (id : ContentId) : IndexAct (List Bytes)
  | indexSri (digests : List (Bytes × ContentId)) : IndexAct Unit
  | staleSri : IndexAct (List Bytes)
  | dropSri (stale : List Bytes) : IndexAct Unit
  | contentForSri (key : Bytes) : IndexAct (Option ContentId)
  | bump (name : String) (n : ℕ) : IndexAct Unit

/-- **What a transaction answers, and what it leaves**. Only writing an entry can
fail, and then nothing is written. -/
def IndexAct.run (ix : Index) : ∀ {β : Type}, IndexAct β → Except CacheError (β × Index)
  | _, .getEntry key => .ok (ix.entries.lookup key, ix)
  | _, .putEntry record newBlobs => ix.putEntry record newBlobs
  | _, .refreshEntry record => .ok ((), ix.refreshEntry record)
  | _, .variantKeys partition method url => .ok (ix.variantKeys partition method url, ix)
  | _, .invalidate partition method url => .ok (ix.invalidate partition method url)
  | _, .removeEntry key => .ok (ix.removeEntry key)
  | _, .dropBrokenEntry key expected => .ok (ix.dropEntryIfUnchanged key expected true)
  | _, .dropEntryHolding key expected => .ok (ix.dropEntryIfUnchanged key expected false)
  | _, .recordAccess key now tally => .ok ((), ix.recordAccess key now tally)
  | _, .allEntries => .ok (ix.allEntries, ix)
  | _, .getBlob id => .ok (ix.blobs.lookup id, ix)
  | _, .blobTotals => .ok (ix.blobTotals, ix)
  | _, .clear => .ok ix.clear
  | _, .orphanedBlobs => .ok (ix.orphanedBlobs, ix)
  | _, .forgetBlobIfUnreferenced id => .ok (ix.forgetBlobIfUnreferenced id)
  | _, .grantEligibility id verified => .ok (ix.grantEligibility id verified)
  | _, .eligibleHashes id => .ok (ix.eligibleHashes id, ix)
  | _, .indexSri digests => .ok ((), ix.indexSri digests)
  | _, .staleSri => .ok (ix.staleSri, ix)
  | _, .dropSri stale => .ok ((), ix.dropSri stale)
  | _, .contentForSri key => .ok (ix.sri.lookup key, ix)
  | _, .bump name n => .ok ((), ix.bump name n)

end Syndeo
