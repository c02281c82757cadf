import Syndeo.Cache.Policy

/-!
# What the index keeps

An entry names what it holds by content address: one address for a whole body,
one for each run of bytes of a body that is still missing some. The records here
are what the index stores under its keys; the tables are in `Syndeo.Cache.Index`.
-/

namespace Syndeo

open Text

/-- `Compression`. -/
inductive Compression
  | none
  | zstd
  deriving DecidableEq

/-- `Provenance`: where a stored body came from. -/
inductive Provenance
  | origin
  | peer
  | «import»
  deriving DecidableEq

/-- `Segment`: one run of bytes of a partial response, held as its own blob. -/
structure Segment where
  start : ℕ
  stop : ℕ
  content : ContentId
  deriving DecidableEq

namespace Segment

/-- The bytes a segment stands for. -/
def run (s : Segment) : ℕ × ℕ := (s.start, s.stop)

/-- `Segment::len`. -/
def len (s : Segment) : ℕ := s.stop - s.start

end Segment

/-- `StoredBody`: what an entry holds. -/
inductive StoredBody
  | Complete (content : ContentId) (len : ℕ)
  /-- The complete length is known where the origin said it. -/
  | Partial (completeLen : Option ℕ) (segments : List Segment)
  deriving DecidableEq

/-- `Vec::dedup`: of a run of equal elements the first stays. -/
def dedupAdjacent {α : Type} [DecidableEq α] : List α → List α
  | a :: b :: l => if a = b then dedupAdjacent (b :: l) else a :: dedupAdjacent (b :: l)
  | l => l

namespace StoredBody

/-- `StoredBody::is_complete`. -/
def isComplete : StoredBody → Bool
  | .Complete _ _ => true
  | .Partial _ _ => false

/-- `StoredBody::complete_content`. -/
def completeContent : StoredBody → Option ContentId
  | .Complete content _ => some content
  | .Partial _ _ => none

/-- `StoredBody::complete_len`. -/
def completeLen : StoredBody → Option ℕ
  | .Complete _ len => some len
  | .Partial completeLen _ => completeLen

/-- `StoredBody::held_len`. -/
def heldLen : StoredBody → ℕ
  | .Complete _ len => len
  | .Partial _ segments => (segments.map Segment.len).sum

/-- `StoredBody::coverage`. -/
def coverage : StoredBody → Coverage
  | .Complete _ len => Coverage.fromSorted [(0, len)]
  | .Partial _ segments => Coverage.fromSorted (segments.map Segment.run)

/-- The blobs an entry refers to, as they come. -/
def named : StoredBody → List ContentId
  | .Complete content _ => [content]
  | .Partial _ segments => segments.map Segment.content

/-- `StoredBody::contents`: every distinct blob an entry refers to. -/
def contents (b : StoredBody) : List ContentId := dedupAdjacent (b.named.insertionSort (· ≤ ·))

end StoredBody

/-- `EntryRecord`. -/
structure EntryRecord where
  partition : Option String
  url : String
  method : String
  status : ℕ
  headers : StoredHeaders
  varyFields : List String
  varyKey : String
  body : StoredBody
  requestTime : ℕ
  responseTime : ℕ
  storedAt : ℕ
  lastUsed : ℕ
  hits : ℕ
  provenance : Provenance
  deriving DecidableEq

/-- `BlobRecord`. -/
structure BlobRecord where
  len : ℕ
  storedLen : ℕ
  compression : Compression
  refcount : ℕ
  created : ℕ
  deriving DecidableEq

/-- `primary_key`: a URL within a partition, before the fields it varies on. -/
def primaryKey (partition : Option String) (method url : String) : String :=
  partition.getD "" ++ "\x01" ++ toAsciiUppercase method ++ "\x01" ++ url

/-- The key of a variant under a primary key. -/
def variantKey (pkey varyKey : String) : String := pkey ++ "\x01" ++ varyKey

/-- `entry_key`. -/
def entryKey (partition : Option String) (method url varyKey : String) : String :=
  variantKey (primaryKey partition method url) varyKey

namespace EntryRecord

/-- `EntryRecord::content_id`: the address of a complete body. -/
def contentId (r : EntryRecord) : Option ContentId := r.body.completeContent

/-- `EntryRecord::contents`. -/
def contents (r : EntryRecord) : List ContentId := r.body.contents

/-- The primary key an entry belongs to. -/
def pkey (r : EntryRecord) : String := primaryKey r.partition r.method r.url

/-- The key an entry is written under. -/
def key (r : EntryRecord) : String := entryKey r.partition r.method r.url r.varyKey

end EntryRecord

/-! ### The contents of a body -/

section Dedup

variable {α : Type} [DecidableEq α] {a b : α} {l : List α}

@[simp] theorem mem_dedupAdjacent : a ∈ dedupAdjacent l ↔ a ∈ l := by
  induction l using dedupAdjacent.induct with
  | case1 b l ih => rw [dedupAdjacent, if_pos rfl, ih]; simp
  | case2 b c l hne ih =>
    rw [dedupAdjacent, if_neg hne, List.mem_cons, ih, List.mem_cons (b := b)]
  | case3 l h => rw [dedupAdjacent]; exact h

/-- Duplicates of a sorted list are adjacent. -/
theorem nodup_dedupAdjacent {le : α → α → Prop} (hanti : ∀ a b, le a b → le b a → a = b)
    (hl : l.Pairwise le) : (dedupAdjacent l).Nodup := by
  induction l using dedupAdjacent.induct with
  | case1 b l ih => rw [dedupAdjacent, if_pos rfl]; exact ih (List.pairwise_cons.mp hl).2
  | case2 b c l hne ih =>
    obtain ⟨hb, hl'⟩ := List.pairwise_cons.mp hl
    rw [dedupAdjacent, if_neg hne, List.nodup_cons, mem_dedupAdjacent]
    refine ⟨fun hmem => hne ?_, ih hl'⟩
    rcases List.mem_cons.mp hmem with rfl | hmem
    · rfl
    · exact hanti _ _ (hb c List.mem_cons_self) ((List.pairwise_cons.mp hl').1 b hmem)
  | case3 l h =>
    rw [dedupAdjacent]
    · rcases l with _ | ⟨b, _ | ⟨c, l⟩⟩
      · exact List.nodup_nil
      · exact List.nodup_singleton b
      · exact absurd rfl (h b c l)
    · exact h

end Dedup

namespace StoredBody

variable {b : StoredBody} {c : ContentId}

@[simp] theorem mem_contents : c ∈ b.contents ↔ c ∈ b.named := by
  rw [contents, mem_dedupAdjacent, (List.perm_insertionSort _ _).mem_iff]

theorem nodup_contents : b.contents.Nodup := by
  refine nodup_dedupAdjacent (fun _ _ => BitVec.le_antisymm) ?_
  have : Std.Total fun x y : ContentId => x ≤ y := ⟨BitVec.le_total⟩
  have : IsTrans ContentId (· ≤ ·) := ⟨fun _ _ _ => BitVec.le_trans⟩
  exact List.pairwise_insertionSort _ _

@[simp] theorem contents_Complete {len : ℕ} : (StoredBody.Complete c len).contents = [c] := rfl

end StoredBody

end Syndeo
