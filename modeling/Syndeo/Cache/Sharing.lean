import Syndeo.Cache.Content

/-!
# What a peer may be given

A body leaves for a peer only where some page's declared integrity named it: the
hash a peer may ask by is the word of whoever declared it, and the code takes
that word only of a body that matches. `Syndeo.Vetted` is what a row owes for each
of its hashes, `Syndeo.shared_of_vetted` that every row pays it in every run, is
of a blob the index still has, and that nothing is given away without one.

The bytes go out some steps after the row was looked at, and it may be gone by
then; so what is said of them is said of the index the thread looked in.
-/

namespace Syndeo

open Concurrent

variable (P : Platform) (opts : CacheOptions)

/-- **The hash was vetted**: some caller declared it of this blob, none of that
declaration's hashes is of a stronger algorithm, and the blob's bytes have it. -/
def Vetted (ops : List Op) (content : ContentId) (key : Bytes) : Prop :=
  ∃ declared, Op.grantPeerEligibility content declared ∈ ops ∧
    ∃ h ∈ declared.hashes, (∀ h' ∈ declared.hashes, h'.algorithm.strength ≤ h.algorithm.strength) ∧
      key = sriKey h.algorithm h.digest ∧
        ∃ bytes, P.blake3 bytes = content ∧ P.digest h.algorithm bytes = h.digest

/-- A row a body may be given by: its blob has a record, and its hashes are vetted. -/
def Index.Shares (ops : List Op) (ix : Index) (content : ContentId) (keys : List Bytes) : Prop :=
  ix.peerEligible.lookup content = some keys ∧ ix.Recorded content ∧
    ∀ key ∈ keys, Vetted P ops content key

variable {P opts}

/-- A declared hash at the strongest algorithm. -/
theorem Integrity.mem_atStrongest {i : Integrity} {h : Hash} : h ∈ i.atStrongest ↔
    h ∈ i.hashes ∧ ∀ h' ∈ i.hashes, h'.algorithm.strength ≤ h.algorithm.strength := by
  rw [atStrongest, List.mem_filter, decide_eq_true_eq, strongest_eq_some_iff]
  constructor
  · rintro ⟨hmem, -, hmax⟩
    exact ⟨hmem, hmax⟩
  · rintro ⟨hmem, hmax⟩
    exact ⟨hmem, ⟨h, hmem, rfl⟩, hmax⟩

/-- What the operations of a run grant is vetted. -/
theorem puts_vetted {ops : List Op} {op : Op} (hop : op ∈ ops) :
    op.Puts P (fun _ _ => True) (fun _ _ => True) (Vetted P ops) := by
  cases op with
  | store w body => exact ⟨⟨trivial, fun _ _ _ => trivial⟩, fun _ _ => trivial⟩
  | finishStreamed w writer => exact ⟨trivial, fun _ _ _ => trivial⟩
  | recordNotModified key freshHeaders requestTime responseTime => exact fun _ _ => trivial
  | grantPeerEligibility content declared =>
    intro bytes hbytes h hmem hmatches
    obtain ⟨hdeclared, hmax⟩ := Integrity.mem_atStrongest.mp hmem
    exact ⟨declared, hop, h, hdeclared, hmax, rfl, bytes, hbytes, (Hash.matches_iff P).mp hmatches⟩
  | _ => trivial

/-- A promised row is one a body may be given by. -/
theorem Index.Holds.shares {E : String → StoredHeaders → Prop} {ops : List Op} {ix : Index}
    {content : ContentId} {keys : List Bytes} (h : ix.Holds E (Vetted P ops))
    (hrow : ix.peerEligible.lookup content = some keys) : ix.Shares P ops content keys :=
  ⟨hrow, h.recorded content keys hrow, h.peers content keys hrow⟩

/-- **Every row a peer is served by is some page's word, in every run**: the blob of
each row has a record, each hash in it was vetted, and a thread that gives a peer
some bytes looked at such a row of theirs before, that names the hash it was asked
for. -/
theorem shared_of_vetted {ops : List Op} {c : Config CacheAct (Store × List Event) Outcome}
    (hrun : loggedRuns.Runs (logged P opts ops) c) :
    (∀ content keys, c.shared.1.index.peerEligible.lookup content = some keys →
      c.shared.1.index.Shares P ops content keys) ∧
    ∀ i asked bytes, ops[i]? = some (.bodyForPeer asked) →
      c.result i = some (.ok (.body (some bytes))) →
        ∃ content index keys, Event.looked i content index ∈ c.shared.2 ∧
          index.Shares P ops content keys ∧ asked.Shown P bytes content keys := by
  have hkept := kept_watched (fun i op hop => puts_vetted (List.mem_of_getElem? hop))
    (fun _ _ _ _ _ => trivial) hrun
  refine ⟨fun content keys hrow => ?_, fun i asked bytes hop hresult => ?_⟩
  · obtain ⟨t, hwatched, -⟩ := hkept
    exact hwatched.now.shares hrow
  · obtain ⟨t, hwatched, hseen⟩ := hkept.returned (Config.result_eq_some.mp hresult)
    obtain ⟨look, hlook, hshown⟩ := hseen _ hop
    obtain ⟨index, hlooked, hkeys⟩ := hwatched.seen i look hlook
    refine ⟨look.1, index, look.2, hlooked, (hwatched.past i _ _ hlooked).shares ?_, hshown⟩
    -- the row was there: it has hashes
    rcases hrow : index.peerEligible.lookup look.1 with _ | keys
    · rw [Index.eligibleHashes, hrow] at hkeys
      exact absurd hkeys.symm hshown.1
    · rw [Index.eligibleHashes, hrow] at hkeys
      exact congrArg some hkeys

/-- A page is stored, shared by its declared hash, and asked for by it. -/
def grantedOps : List Op :=
  [.store pageStore [97],
    .grantPeerEligibility (Platform.sampleBlake3 [97])
      ⟨[⟨.sha256, Platform.sampleDigest .sha256 [97]⟩]⟩,
    .bodyForPeer (.integrity ⟨.sha256, Platform.sampleDigest .sha256 [97]⟩)]

/-- Whether an operation has given these bytes. -/
def gaveBytes (bytes : Bytes) (i : ℕ) (c : Config CacheAct (Store × List Event) Outcome) : Bool :=
  match c.result i with
  | some (.ok (.body (some given))) => given = bytes
  | _ => false

theorem result_of_gaveBytes {bytes : Bytes} {i : ℕ} {c : Config CacheAct (Store × List Event) Outcome}
    (h : gaveBytes bytes i c = true) : c.result i = some (.ok (.body (some bytes))) := by
  rw [gaveBytes] at h
  split at h
  · rename_i given heq
    rw [heq, of_decide_eq_true h]
  · cases h

/-- And the peer is given it. -/
theorem shared_of_vetted_page :
    ∃ c, loggedRuns.Runs (logged Platform.sample .default grantedOps) c ∧
      c.result 2 = some (.ok (.body (some [97]))) ∧
        ∃ content index keys, Event.looked 2 content index ∈ c.shared.2 ∧
          index.Shares Platform.sample grantedOps content keys ∧
            (PeerAsk.integrity ⟨.sha256, Platform.sampleDigest .sha256 [97]⟩).Shown Platform.sample
              [97] content keys := by
  have hfollow : ((logged Platform.sample .default grantedOps).follow
      (noting (fun i {_} a s b _ log => log ++ eventsOf i a s b) Store.perform) (fun {_} _ => none)
      ((List.replicate 10 0 ++ List.replicate 4 1 ++ List.replicate 3 2).map fun i =>
        (⟨10, none⟩, i))).any (gaveBytes [97] 2) = true := by decide +kernel
  obtain ⟨c, hc, hgiven⟩ := exists_cacheRuns_noting _ hfollow
  have hresult := result_of_gaveBytes hgiven
  exact ⟨c, hc, hresult, (shared_of_vetted hc).2 2 _ [97] rfl hresult⟩

end Syndeo
