import Syndeo.Cache.Counting
import Syndeo.Net.Fetch

/-!
# Walking through a fetch

Most of what a fetch does asks no origin, and counts nothing of what is answered from
the store. What it asks for there is of every kind of steps that has all of those
(`Syndeo.Net.Tolerates`); a statement about the few other steps then passes over the
rest of the fetch.
-/

namespace Syndeo

namespace Net

open Concurrent
open Prog (Asks Stays StaysWith asks_run_bind asks_lift asks_lift_run)

/-- The step is no step of the cache, asks no origin and begins no hop. -/
def NetAct.Apart : ∀ {β : Type}, NetAct β → Prop
  | _, .cache _ _ => False
  | _, .tcp _ _ => False
  | _, .quic _ _ => False
  | _, .hop _ => False
  | _, _ => True

/-- **A kind of steps** with all that are apart, and all of the cache that count nothing
of what is answered from it. -/
structure Tolerates (H : ∀ {β : Type}, NetAct β → Prop) : Prop where
  cache : ∀ {β : Type} (errand : Errand) (a : CacheAct β), a.Uncounted → H (.cache errand a)
  apart : ∀ {β : Type} (a : NetAct β), a.Apart → H a

/-- The kind has the requests to origins, too. -/
def Asking (H : ∀ {β : Type}, NetAct β → Prop) : Prop :=
  ∀ request extra, H (.tcp request extra) ∧ H (.quic request extra)

/-! ### Operations of the cache -/

section Cache

variable {τ α : Type} {D : Discipline NetAct τ} {T : τ → Prop} {errand : Errand} {x : CacheM α} {t : τ}

theorem obeys_attemptCache {Q : Except NetError (Except CacheError α) → τ → Prop} :
    (attemptCache errand x).run.Obeys D Q t ↔
      x.run.Obeys (D.comap (NetAct.cache errand)) (fun r u => Q (.ok r) u) t := by
  rw [attemptCache, ExceptT.run_lift, map_eq_pure_bind, Prog.obeys_bind]
  exact Prog.obeys_lift

theorem obeys_onCache {Q : Except NetError α → τ → Prop} :
    (onCache errand x).run.Obeys D Q t ↔
      x.run.Obeys (D.comap (NetAct.cache errand)) (fun r u => Q (r.mapError .cache) u) t := by
  rw [onCache, Prog.obeys_run_bind, obeys_attemptCache]
  exact Iff.rfl

end Cache

/-! ### What is asked for -/

section Asks

variable {H : ∀ {β : Type}, NetAct β → Prop} {α β : Type} {P : Platform} {config : NetConfig}
  {request : FetchRequest} {keep : Keep} {teed : Teed} {exchange : Exchange} {answer : Answer}
  {integrity : Integrity} {extra : List (HeaderName × String)} {errand : Errand}

theorem asks_act {a : NetAct α} (ha : H a) : (act a).run.Asks H := ⟨ha, fun _ => trivial⟩

theorem asks_given {r : Except NetError α} : (given r).run.Asks H := trivial

theorem asks_pure {a : α} : (pure a : NetM α).run.Asks H := trivial

theorem asks_attempt {x : NetM α} (hx : x.run.Asks H) : (attempt x).run.Asks H := asks_lift_run hx

theorem asks_originHeaders (hask : Asking @H) : (originHeaders request extra).run.Asks H :=
  asks_run_bind (asks_act (hask request extra).1) fun _ => asks_given

theorem asks_origin (hask : Asking @H) : (origin config request extra).run.Asks H :=
  asks_run_bind (asks_originHeaders hask) fun _ => asks_run_bind asks_given fun _ => trivial

namespace Tolerates

variable (hH : Tolerates @H)

include hH

theorem attemptCache {x : CacheM α} (hx : x.run.Asks CacheAct.Uncounted) :
    (attemptCache errand x).run.Asks H := by
  rw [Net.attemptCache, ExceptT.run_lift, map_eq_pure_bind]
  exact (asks_lift (hx.mono fun a => hH.cache errand a)).bind fun _ => trivial

theorem onCache {x : CacheM α} (hx : x.run.Asks CacheAct.Uncounted) :
    (onCache errand x).run.Asks H := asks_run_bind (hH.attemptCache hx) fun _ => asks_given

theorem now : (now errand).run.Asks H := asks_act (hH.cache errand _ trivial)

theorem act {a : NetAct α} (ha : a.Apart) : (act a).run.Asks H := asks_act (hH.apart a ha)

theorem admits {address : Option IpAddr} : (keep.admits address).run.Asks H := by
  rw [Keep.admits]
  split
  · trivial
  · exact hH.act trivial

theorem settled {address : Option String} : (settled address).run.Asks H := by
  have heach : ∀ waiting, (awaitEach waiting).run.Asks H := by
    intro waiting
    induction waiting with
    | nil => trivial
    | cons landing rest ih => exact asks_run_bind (hH.act trivial) fun _ => ih
  exact asks_run_bind (hH.act trivial) heach

theorem finishWith {status : ℕ} {headers : HeaderMap} {body : FetchBody} {source : Source}
    {content : Option ContentId} {protocol : Protocol} :
    (finishWith status headers body source content protocol).run.Asks H :=
  asks_run_bind (hH.act trivial) fun _ => trivial

theorem finish {status : ℕ} {headers : HeaderMap} {body : Bytes} {source : Source}
    {content : Option ContentId} : (finish status headers body source content).run.Asks H :=
  asks_run_bind hH.finishWith fun _ => trivial

theorem keepAnswer {status : ℕ} {headers : HeaderMap} {body : Bytes} {address : Option IpAddr} :
    (keepAnswer P config request status headers body address keep).run.Asks H := by
  refine asks_run_bind hH.admits fun kept => ?_
  split
  · refine asks_run_bind hH.now fun _ => asks_run_bind (hH.attemptCache uncounted_store)
      fun outcome => asks_run_bind (hH.act trivial) fun _ => ?_
    split
    · trivial
    · trivial
  · trivial

theorem announce {hashes : List Hash} : (announce hashes).run.Asks H := by
  rw [Net.announce]
  split
  · trivial
  · exact hH.act trivial

theorem grantAndAnnounce {content : ContentId} :
    (grantAndAnnounce P errand content integrity).run.Asks H := by
  refine asks_run_bind (hH.attemptCache uncounted_grantPeerEligibility) fun granted => ?_
  rcases granted with e | fresh
  · trivial
  · exact hH.announce

theorem shareVerified {content : ContentId} {matching : List Hash} :
    (shareVerified P content integrity matching).run.Asks H := by
  refine asks_run_bind (hH.attemptCache uncounted_peerEligibility) fun recorded => ?_
  rcases recorded with e | recorded
  · exact hH.grantAndAnnounce
  · simp only
    split
    · trivial
    · exact hH.grantAndAnnounce

theorem storedSatisfies {stored : StoredResponse} :
    (storedSatisfies P request stored).run.Asks H := by
  rw [Net.storedSatisfies]
  split
  · trivial
  · split
    · trivial
    · simp only
      split
      · split
        · exact asks_run_bind hH.shareVerified fun _ => trivial
        · trivial
      · split
        · exact asks_run_bind (hH.attemptCache uncounted_discardRepresentation) fun _ => trivial
        · trivial

theorem tryPeers : (tryPeers P request).run.Asks H := by
  rw [Net.tryPeers]
  split
  · trivial
  · split
    · trivial
    · refine asks_run_bind (hH.act trivial) fun found => ?_
      rcases found with _ | body
      · trivial
      · refine asks_run_bind (hH.attemptCache uncounted_acceptPeerBody) fun accepted => ?_
        rcases accepted with e | _
        · trivial
        · exact asks_run_bind hH.finish fun _ => trivial

theorem acceptDeclared {protocol : Protocol} :
    (acceptDeclared P config request integrity answer protocol keep).run.Asks H := by
  have hrespond : ∀ content : Option ContentId, (do
      let response ← Net.finishWith answer.status answer.headers (.bytes answer.body)
        (if content.isSome then .origin else .passThrough) content protocol
      pure ⟨response, none⟩ : NetM Fetched).run.Asks H :=
    fun content => asks_run_bind hH.finishWith fun _ => trivial
  rw [Net.acceptDeclared]
  simp only
  split
  · exact asks_run_bind hH.keepAnswer hrespond
  · split
    · exact asks_given
    · refine asks_run_bind hH.keepAnswer fun content => ?_
      rcases content with _ | id
      · exact hrespond none
      · exact asks_run_bind hH.grantAndAnnounce fun _ => hrespond _

theorem streamBody : (streamBody config request exchange keep).run.Asks H := by
  refine asks_run_bind hH.admits fun kept => ?_
  split
  · refine asks_run_bind (hH.act trivial) fun _ => asks_run_bind (hH.act trivial) fun opened => ?_
    split
    · exact asks_run_bind hH.now fun _ => trivial
    · trivial
  · trivial

theorem writeStreamed {writer : BlobWriter} :
    (writeStreamed P config teed writer).run.Asks H := by
  refine asks_run_bind hH.admits fun kept => ?_
  split
  · exact asks_run_bind hH.now fun _ => asks_run_bind (hH.attemptCache uncounted_finishStreamed)
      fun _ => hH.act trivial
  · trivial

theorem land : (land P config teed).run.Asks H := by
  rw [Net.land]
  split
  · trivial
  · refine asks_run_bind (hH.act trivial) fun _ => asks_run_bind (hH.act trivial) fun runtime => ?_
    split
    · exact hH.act trivial
    · exact asks_run_bind (asks_attempt hH.writeStreamed) fun _ => hH.act trivial

theorem observe {tee : Tee} {chunk : Bytes} : (tee.observe chunk).run.Asks H := by
  rw [Tee.observe]
  split
  · trivial
  · split
    · trivial
    · refine asks_run_bind (hH.act trivial) fun written => ?_
      split
      · trivial
      · trivial

theorem readStream {read items : List (Except String Bytes)} {teed : Option Teed} :
    (readStream P config read teed items).run.Asks H := by
  have hmore : (Net.act .more).run.Asks H := hH.act trivial
  fun_induction Net.readStream P config read teed items with
  | case1 read teed =>
    refine asks_run_bind hmore fun more => ?_
    split
    · rcases teed with _ | teed
      · trivial
      · exact asks_run_bind hH.land fun _ => trivial
    · trivial
  | case2 read item rest ih =>
    refine asks_run_bind hmore fun more => ?_
    split
    · exact ih
    · trivial
  | case3 read teed chunk rest ih =>
    refine asks_run_bind hmore fun more => ?_
    split
    · exact asks_run_bind hH.observe ih
    · trivial
  | case4 read teed e rest =>
    refine asks_run_bind hmore fun more => ?_
    split
    · exact asks_run_bind hmore fun _ => trivial
    · trivial

theorem receive {fetched : Fetched} : (receive P config fetched).run.Asks H := by
  rw [Net.receive]
  split
  · trivial
  · exact asks_run_bind hH.readStream fun _ => trivial

theorem spawnRefresh {key : String} {conditional : List (HeaderName × String)} :
    (spawnRefresh key request conditional keep).run.Asks H := by
  refine asks_run_bind (hH.act trivial) fun first => ?_
  split
  · exact hH.act trivial
  · trivial

theorem replaceEntry : (replaceEntry P config request answer).run.Asks H := by
  rw [Net.replaceEntry]
  split
  · trivial
  · refine asks_run_bind hH.now fun _ => asks_run_bind (hH.onCache uncounted_store)
      fun outcome => ?_
    split
    · split
      · exact asks_run_bind (hH.onCache uncounted_grantPeerEligibility) fun _ => trivial
      · trivial
    · trivial
    · trivial

theorem replaced : (replaced P config request answer keep).run.Asks H := by
  rw [Net.replaced]
  split
  · exact hH.acceptDeclared
  · exact asks_run_bind hH.keepAnswer fun _ => hH.finish

section Asking

-- a goal is what its program asks for, and not to be unfolded into it
attribute [local irreducible] Asks

variable (hask : Asking @H)

include hask

theorem originAny : (originAny request extra).run.Asks H := by
  refine asks_run_bind (hH.act trivial) fun quic => ?_
  split
  · refine asks_run_bind (asks_act (hask request extra).2) fun r => ?_
    rcases r with failed | exchange
    · simp only
      split
      · exact asks_originHeaders hask
      · exact asks_given
    · exact asks_pure
  · exact asks_originHeaders hask

theorem fetchFromOrigin : (fetchFromOrigin P config request extra keep).run.Asks H := by
  refine asks_run_bind (hH.originAny hask) fun exchange => ?_
  split
  · exact asks_run_bind asks_given fun _ => hH.acceptDeclared
  · exact asks_run_bind hH.streamBody fun _ => asks_run_bind hH.finishWith fun _ => asks_pure

theorem refetchLost : (refetchLost P config request keep).run.Asks H := by
  refine asks_run_bind (hH.fetchFromOrigin hask) fun fetched => ?_
  split
  · exact asks_given
  · exact asks_pure

theorem passThrough : (passThrough P config request).run.Asks H :=
  asks_run_bind (hH.attemptCache uncounted_invalidateUrl) fun _ =>
    asks_run_bind (asks_origin hask) fun _ => hH.finish

theorem serveOr {stored : StoredResponse} {serve : NetM Fetched} (hserve : serve.run.Asks H) :
    (serveOr P config request stored keep serve).run.Asks H := by
  refine asks_run_bind hH.storedSatisfies fun satisfies => ?_
  split
  · exact hserve
  · exact hH.fetchFromOrigin hask

/-! What looks an entry up or confirms one is passed over only where every step of the
cache is of the kind. -/

section OfCache

variable (hcache : ∀ {β : Type} (errand : Errand) (a : CacheAct β), H (.cache errand a))

include hcache

theorem confirmed {stored : StoredResponse} :
    (confirmed P config request stored answer keep).run.Asks H := by
  refine asks_run_bind hH.admits fun kept => ?_
  split
  · refine asks_run_bind hH.now fun time => ?_
    have hrecord : (Net.attemptCache .answer
        (recordNotModified P stored.key answer.headers time time)).run.Asks H := by
      rw [Net.attemptCache, ExceptT.run_lift, map_eq_pure_bind]
      exact (asks_lift (Prog.asks_of_forall fun a => hcache .answer a)).bind fun _ => asks_pure
    refine asks_run_bind hrecord fun recorded => asks_run_bind (hH.act trivial) fun _ => ?_
    rcases recorded with e | _ | refreshed
    · simp only
      split
      · exact hH.refetchLost hask
      · exact asks_given
    · exact hH.finish
    · exact hH.serveOr hask hH.finish
  · exact hH.finish

theorem revalidate {stored : StoredResponse} {conditional : List (HeaderName × String)}
    {staleIfError : Option ℕ} :
    (revalidate P config request stored conditional staleIfError keep).run.Asks H := by
  refine asks_run_bind (asks_attempt (asks_origin hask)) fun attempted => ?_
  rcases attempted with e | answer
  · simp only
    split
    · exact hH.finish
    · exact asks_given
  · simp only
    split
    · exact hH.confirmed hask hcache
    · exact hH.replaced

theorem answerFrom {found : Lookup} : (answerFrom P config request keep found).run.Asks H := by
  cases found with
  | fresh stored => exact hH.serveOr hask hH.finish
  | stale stored refreshInBackground reason =>
    refine hH.serveOr hask ?_
    split
    · exact asks_run_bind hH.spawnRefresh fun _ => hH.finish
    · exact hH.finish
  | revalidate stored conditional staleIfError reason =>
    exact hH.serveOr hask (hH.revalidate hask hcache)
  | miss reason =>
    refine asks_run_bind hH.tryPeers fun found => ?_
    rcases found with _ | fetched
    · exact hH.fetchFromOrigin hask
    · exact asks_pure

/-- **A hop**, but for its beginning. -/
theorem fetchOnce (hhop : H (.hop request)) : (fetchOnce P config request).run.Asks H := by
  refine asks_run_bind (asks_act hhop) fun _ => asks_run_bind hH.settled fun _ =>
    asks_run_bind (hH.act trivial) fun since => ?_
  split
  · exact hH.passThrough hask
  · have hlookup : (Net.onCache .answer (lookup P config.cacheOptions request.partition
        request.method request.url request.headers)).run.Asks H := by
      refine asks_run_bind ?_ fun _ => asks_given
      rw [Net.attemptCache, ExceptT.run_lift, map_eq_pure_bind]
      exact (asks_lift (Prog.asks_of_forall fun a => hcache .answer a)).bind fun _ => asks_pure
    exact asks_run_bind hlookup fun found => hH.answerFrom hask hcache

end OfCache

end Asking

end Tolerates

end Asks

end Net

end Syndeo
