import Syndeo.Peer.Turns

/-!
# What a fetch is answered

Whatever happens in whatever order, a fetch is answered once, on its own channel,
and with nothing but the bytes that were asked for
(`Syndeo.Swarm.fetches_answered_once`).

That it is only told that no peer had it when all of them have said so needs more.
`exhausted` ends a fetch whose last request has failed even while its query still
runs, and starts a second query for one whose query is over; so the reason is right
exactly as far as no request is the last one to fail after a query was started
(`Syndeo.Swarm.notFound_when_exhausted`).
-/

namespace Syndeo

open Tables Events

namespace Swarm

variable {Peer : Type} [DecidableEq Peer] {P : Platform} {config : PeerConfig} {localPeer : Peer}
  {log : List (Entry Peer)} {id r q : ℕ} {l l' : Loop Peer} {entry entry' : Pending Peer}

/-! ### Runs -/

/-- **The loop after a list of events.** -/
def Loop.run (P : Platform) (config : PeerConfig) (localPeer : Peer) (es : List (Event Peer)) :
    Loop Peer :=
  es.foldl (Loop.after P config localPeer) .start

theorem Loop.run_append {es es' : List (Event Peer)} :
    Loop.run P config localPeer (es ++ es') =
      es'.foldl (Loop.after P config localPeer) (Loop.run P config localPeer es) :=
  List.foldl_append

/-- Whatever happens to a loop that is sound, it stays sound. -/
theorem Sound.foldl (h : Sound P l) (es : List (Event Peer)) :
    Sound P (es.foldl (Loop.after P config localPeer) l) := by
  induction es generalizing l with
  | nil => exact h
  | cons e es ih => exact ih (h.after e)

theorem sound_run {es : List (Event Peer)} : Sound P (Loop.run P config localPeer es) :=
  sound_start.foldl es

/-- Whatever happens, what is in the log stays there. -/
theorem Loop.log_foldl (es : List (Event Peer)) :
    l.log <+: (es.foldl (Loop.after P config localPeer) l).log := by
  induction es generalizing l with
  | nil => exact List.prefix_rfl
  | cons e es ih => exact ((List.prefix_append _ _).trans (Loop.log_after e)).trans ih

/-! ### What is told from the log -/

/-- What a fetch was answered, and on which channels. -/
def answers (log : List (Entry Peer)) (id : ℕ) : List (ℕ × Outcome) :=
  log.filterMap fun
    | .replied id' reply outcome => if id' = id then some (reply, outcome) else none
    | _ => none

omit [DecidableEq Peer] in
theorem mem_answers_iff {reply : ℕ} {outcome : Outcome} :
    (reply, outcome) ∈ answers log id ↔ Entry.replied id reply outcome ∈ log := by
  rw [answers, List.mem_filterMap]
  constructor
  · rintro ⟨e, hm, he⟩
    cases e with
    | replied id' reply' outcome' =>
      dsimp only at he
      split at he
      · rename_i hid
        obtain ⟨rfl, rfl⟩ := Prod.mk.inj (Option.some.inj he)
        rwa [← hid]
      · exact absurd he (by simp)
    | _ => exact absurd he (by simp)
  · exact fun hm => ⟨_, hm, if_pos rfl⟩

omit [DecidableEq Peer] in
/-- A request is made for one fetch. -/
theorem Asked.unique {id' : ℕ} (h : EachAfter (Honest P) log) (hid : Asked log id r)
    (hid' : Asked log id' r) : id = id' := by
  obtain ⟨peer, hid⟩ := hid
  obtain ⟨peer', hid'⟩ := hid'
  let key : Entry Peer → Option ℕ := fun
    | .asked _ r _ => some r
    | _ => none
  have hkey : EachAfter (fun before e => ∀ r, key e = some r → ∀ e' ∈ before, key e' ≠ some r)
      log := by
    refine h.imp fun before e hhonest r hr e' he' hr' => ?_
    cases e with
    | asked id r' peer =>
      obtain rfl : r' = r := Option.some.inj hr
      cases e' with
      | asked id' r peer' =>
        obtain rfl : r = r' := Option.some.inj hr'
        exact hhonest id' ⟨peer', he'⟩
      | _ => exact absurd hr' (by simp [key])
    | _ => exact absurd hr (by simp [key])
  exact (Entry.asked.inj (hkey.eq_of_key (k := r) hid hid' rfl rfl)).1

omit [DecidableEq Peer] in
/-- A fetch is accepted once. -/
theorem accepted_unique {request request' : BlobRequest} {reply reply' deadline deadline' : ℕ}
    (h : EachAfter (Honest P) log) (hid : Entry.accepted id request reply deadline ∈ log)
    (hid' : Entry.accepted id request' reply' deadline' ∈ log) :
    request = request' ∧ reply = reply' ∧ deadline = deadline' := by
  let key : Entry Peer → Option ℕ := fun
    | .accepted id _ _ _ => some id
    | _ => none
  have hkey : EachAfter (fun before e => ∀ id, key e = some id → ∀ e' ∈ before, key e' ≠ some id)
      log := by
    refine h.imp fun before e hhonest id hid e' he' hid' => ?_
    cases e with
    | accepted id₀ =>
      obtain rfl : id₀ = id := Option.some.inj hid
      cases e' with
      | accepted id =>
        obtain rfl : id = id₀ := Option.some.inj hid'
        exact hhonest _ _ _ he'
      | _ => exact absurd hid' (by simp [key])
    | _ => exact absurd hid (by simp [key])
  exact (Entry.accepted.inj (hkey.eq_of_key (k := id) hid hid' rfl rfl)).2

omit [DecidableEq Peer] in
/-- A fetch is answered once. -/
theorem length_answers_le_one (h : EachAfter (Honest P) log) : (answers log id).length ≤ 1 := by
  refine length_filterMap_le_one (h.imp fun before e hhonest hsome e' he' => ?_)
  cases e with
  | replied id₀ reply outcome =>
    dsimp only at hsome
    split at hsome
    · rename_i hid
      subst hid
      cases e' with
      | replied id' reply' outcome' =>
        refine if_neg fun hid' => hhonest.1 ⟨reply', outcome', ?_⟩
        rwa [← hid']
      | _ => rfl
    · exact absurd hsome (by simp)
  | _ => exact absurd hsome (by simp)

/-! ### One answer, and the right one -/

/-- **A sweep after its deadline** ends a fetch that was accepted. -/
theorem replied_of_sweep (config : PeerConfig) (localPeer : Peer) {request : BlobRequest} {reply deadline t : ℕ} (h : Sound P l)
    (haccepted : Entry.accepted id request reply deadline ∈ l.log) (ht : deadline ≤ t) :
    Replied (l.after P config localPeer (.sweep t)).log id := by
  have hafter : Sound P (l.after P config localPeer (.sweep t)) := h.after _
  have hgrows : l.log <+: (l.after P config localPeer (.sweep t)).log :=
    (List.prefix_append _ _).trans (Loop.log_after _)
  have haccepted := hgrows.subset haccepted
  refine (hafter.settled id _ _ _ haccepted).resolve_left ?_
  rintro ⟨entry, hentry⟩
  obtain ⟨reply', -, howed⟩ := (hafter.tracked id entry hentry).owed
  obtain ⟨-, -, hdeadline⟩ := accepted_unique hafter.numbered.honest haccepted howed
  have hlt : t < entry.deadline := Loop.lt_deadline_of_expire hentry
  omega

/-- **What is to hold of an answer**, whatever has happened: it is to a fetch that was
accepted and is not answered yet; and if something that a peer did brought it about,
that peer was asked on behalf of this fetch, and of no other. -/
def Deserved (before : List (Entry Peer)) : Entry Peer → Prop
  | .replied id reply _ =>
    (∃ request deadline, Entry.accepted id request reply deadline ∈ before) ∧
      ¬Replied before id ∧
      ∀ e r, lastEvent before = some e → e.about = some r → ∀ id', Asked before id' r ↔ id' = id
  | _ => True

omit [DecidableEq Peer] in
theorem deserved_of_honest (h : EachAfter (Honest P) log) : EachAfter Deserved log := by
  intro before e rest heq
  have hbefore : EachAfter (Honest P) before := (heq ▸ h).of_append
  have hhonest := h before e rest heq
  cases e with
  | replied id reply outcome =>
    obtain ⟨hfirst, ⟨request, deadline, haccepted, -⟩, hcause⟩ := hhonest
    refine ⟨⟨request, deadline, haccepted⟩, hfirst, fun e r he hr id' => ⟨fun hasked => ?_, ?_⟩⟩
    · exact hasked.unique hbefore (hcause e r he hr)
    · rintro rfl
      exact hcause e r he hr
  | _ => trivial

/-- **Every fetch that is accepted gets one answer.** Whatever happens before and after
it is, in whatever order: it is answered at most once, and is answered by the time of
the first sweep after its deadline; the answer is on its own channel, and a body is
what was asked for, and not too long. And whatever a peer does, no fetch is answered
twice because of it, nor one on behalf of which the peer was not asked. -/
theorem fetches_answered_once (P : Platform) (config : PeerConfig) (localPeer : Peer)
    (before after : List (Event Peer)) (request : BlobRequest) (reply now : ℕ) :
    let id := (Loop.run P config localPeer before).nextFetch
    let log := (Loop.run P config localPeer
      (before ++ .command (.fetch request reply) now :: after)).log
    Entry.accepted id request reply (now + config.fetchTimeout) ∈ log ∧
      (answers log id).length ≤ 1 ∧
      (∀ t, .sweep t ∈ after → now + config.fetchTimeout ≤ t → (answers log id).length = 1) ∧
      (∀ channel outcome, (channel, outcome) ∈ answers log id → channel = reply ∧
        ∀ body, outcome = .ok body → request.Names P body ∧ body.length ≤ maxBody) ∧
      EachAfter Deserved log := by
  intro id log
  set l := (Loop.run P config localPeer before).after P config localPeer
    (.command (.fetch request reply) now) with hl
  have hrun : ∀ es, Loop.run P config localPeer
      (before ++ .command (.fetch request reply) now :: es) =
      es.foldl (Loop.after P config localPeer) l := by
    intro es
    rw [Loop.run_append, List.foldl_cons]
  have hlog : log = (after.foldl (Loop.after P config localPeer) l).log := by
    rw [← hrun]
  have hsound : Sound P l := sound_run.after _
  have hhonest : EachAfter (Honest P) log := by
    rw [hlog]
    exact (hsound.foldl after).numbered.honest
  have haccepted : Entry.accepted id request reply (now + config.fetchTimeout) ∈ l.log := by
    refine List.IsPrefix.subset (Loop.log_handleFetch (l := Loop.record _ _)) ?_
    exact List.mem_append_right _ List.mem_cons_self
  have hmem : Entry.accepted id request reply (now + config.fetchTimeout) ∈ log := by
    rw [hlog]
    exact (Loop.log_foldl after).subset haccepted
  refine ⟨hmem, length_answers_le_one hhonest, ?_, ?_, deserved_of_honest hhonest⟩
  · intro t ht hdeadline
    obtain ⟨es, es', rfl⟩ := List.append_of_mem ht
    rw [List.foldl_append, List.foldl_cons] at hlog
    have hreplied : Replied log id := by
      obtain ⟨reply', outcome, hreply⟩ := replied_of_sweep config localPeer
        (hsound.foldl es) ((Loop.log_foldl es).subset haccepted) hdeadline
      rw [hlog]
      exact ⟨reply', outcome, (Loop.log_foldl es').subset hreply⟩
    obtain ⟨reply', outcome, hreply⟩ := hreplied
    have hpos : 0 < (answers log id).length :=
      List.length_pos_of_mem (mem_answers_iff.mpr hreply)
    have hle : (answers log id).length ≤ 1 := length_answers_le_one hhonest
    omega
  · intro channel outcome hanswer
    obtain ⟨rest, rest', hsplit⟩ := List.append_of_mem (mem_answers_iff.mp hanswer)
    obtain ⟨-, ⟨request', deadline, haccepted', hbody⟩, -⟩ := hhonest _ _ _ hsplit
    have haccepted' : Entry.accepted id request' channel deadline ∈ log := by
      rw [hsplit]
      exact List.mem_append_left _ haccepted'
    obtain ⟨hrequest, hreply, -⟩ := accepted_unique hhonest hmem haccepted'
    exact ⟨hreply.symm, fun body hbody' => hrequest ▸ hbody body hbody'⟩

/-! ### The reason that is given -/

omit [DecidableEq Peer] in
/-- A fetch that waits for nothing has exhausted what there is. -/
theorem Tracked.exhausted (h : Tracked l id entry) (houtstanding : entry.outstanding = 0)
    (hquery : entry.query = none)
    (hdiscovery : config.discovery = true → ∃ q, Queried l.log id q) :
    Exhausted config l.log id := by
  refine ⟨fun r hasked => ?_, fun q hqueried => ?_, hdiscovery⟩
  · refine (h.asked r hasked).resolve_right fun hr => ?_
    have hpos : 0 < count (fun _ id' => id' == id) l.pending :=
      count_pos_iff.mpr ⟨r, id, hr, beq_self_eq_true id⟩
    rw [← h.outstanding] at hpos
    omega
  · exact (h.queried q hqueried).resolve_right fun hq => absurd (hquery.symm.trans hq) (by simp)

omit [DecidableEq Peer] in
/-- What is answered is thorough, if the reason is. -/
theorem thorough_finish {outcome : Outcome} (h : EachAfter (Thorough config) l.log)
    (hover : outcome = .error .notFound → Exhausted config l.log id) :
    EachAfter (Thorough config) (l.finish id entry outcome).log := by
  rw [Loop.finish]
  split
  · refine eachAfter_concat.mpr ⟨h, ?_⟩
    rcases outcome with error | body
    · cases error with
      | notFound => exact hover rfl
      | timeout => trivial
    · trivial
  · exact h

omit [DecidableEq Peer] in
/-- A query is thorough, if it is the first. -/
theorem thorough_startProviderQuery (h : EachAfter (Thorough config) l.log)
    (hfirst : ∀ q, ¬Queried l.log id q)
    (hstart : l.startProviderQuery config id entry = some (l', entry')) :
    EachAfter (Thorough config) l'.log := by
  obtain ⟨-, -, rfl, -⟩ := Loop.startProviderQuery_eq_some hstart
  exact eachAfter_concat.mpr ⟨h, hfirst⟩

omit [DecidableEq Peer] in
theorem thorough_append_asked {es : List (Entry Peer)} (h : EachAfter (Thorough config) log)
    (hes : ∀ e ∈ es, ∃ requestId peer, e = .asked id requestId peer) :
    EachAfter (Thorough config) (log ++ es) :=
  eachAfter_append h fun e he before => by
    obtain ⟨_, _, rfl⟩ := hes e he
    trivial

/-- **A fetch that is taken up** is told that there is nothing only if there is nobody to
ask. -/
theorem thorough_handleFetch {request : BlobRequest} {reply now : ℕ} (hsound : Sound P l)
    (h : EachAfter (Thorough config) l.log) :
    EachAfter (Thorough config) (l.handleFetch config request reply now).log := by
  rw [Loop.handleFetch]
  dsimp only
  generalize hr : (Loop.askEach _ _ _ _ : Loop Peer × Pending Peer) = r
  have hhold : Holds P r.1 l.nextFetch r.2 := by
    rw [← hr]
    exact Holds.askEach (hsound.accept request reply (now + config.fetchTimeout))
  have hquery : r.2.query = none := by
    rw [← hr, Loop.askEach_query]
  have hasked : ∃ es, r.1.log = (l.log ++
      [.accepted l.nextFetch request reply (now + config.fetchTimeout)]) ++ es ∧
      ∀ e ∈ es, ∃ requestId peer, e = .asked l.nextFetch requestId peer := by
    rw [← hr]
    exact Loop.askEach_log
  obtain ⟨es, hlog, hes⟩ := hasked
  have hthorough : EachAfter (Thorough config) r.1.log := by
    rw [hlog]
    exact thorough_append_asked (eachAfter_concat.mpr ⟨h, trivial⟩) hes
  have hfirst : ∀ q, ¬Queried r.1.log l.nextFetch q := by
    intro q hqueried
    rw [Queried, hlog, List.append_assoc] at hqueried
    rcases List.mem_append.mp hqueried with hqueried | hqueried
    · exact absurd (hsound.numbered.queried _ q hqueried) (lt_irrefl _)
    · rcases List.mem_cons.mp hqueried with heq | hqueried
      · exact absurd heq (by simp)
      · obtain ⟨_, _, heq⟩ := hes _ hqueried
        exact absurd heq (by simp)
  split
  · rename_i houtstanding
    split
    · rename_i hstart
      have hstarted := thorough_startProviderQuery hthorough hfirst hstart
      exact hstarted
    · rename_i hstart
      have hdiscovery : config.discovery = false :=
        (Loop.startProviderQuery_eq_none hstart).resolve_right (by simp [hquery])
      refine thorough_finish hthorough fun _ =>
        hhold.mine.exhausted houtstanding hquery fun hyes => ?_
      exact absurd (hdiscovery.symm.trans hyes) (by simp)
  · exact hthorough

omit [DecidableEq Peer] in
/-- **A fetch that nobody has to be waited for** goes on, or ends, as it should: if no
query was started for it yet. -/
theorem thorough_exhausted (hsound : Sound P l) (h : EachAfter (Thorough config) l.log)
    (hfirst : ∀ entry, l.fetches.lookup id = some entry → entry.outstanding = 0 →
      ∀ q, ¬Queried l.log id q) : EachAfter (Thorough config) (l.exhausted config id).log := by
  rw [Loop.exhausted]
  split
  · exact h
  · rename_i entry hentry
    split
    · exact h
    · rename_i houtstanding
      have houtstanding : entry.outstanding = 0 := Nat.eq_zero_of_not_pos houtstanding
      have hnone := hfirst entry hentry houtstanding
      have htracked := hsound.tracked id entry hentry
      have hquery : entry.query = none :=
        Option.eq_none_iff_forall_ne_some.mpr fun q hq => hnone q (htracked.started q hq)
      split
      · rename_i hstart
        have hdrop : EachAfter (Thorough config) (l.drop id).log := h
        have hstarted := thorough_startProviderQuery hdrop hnone hstart
        exact hstarted
      · rename_i hstart
        have hdiscovery : config.discovery = false :=
          (Loop.startProviderQuery_eq_none hstart).resolve_right (by simp [hquery])
        have hdrop : EachAfter (Thorough config) (l.drop id).log := h
        refine thorough_finish hdrop fun _ => htracked.exhausted houtstanding hquery fun hyes => ?_
        exact absurd (hdiscovery.symm.trans hyes) (by simp)

omit [DecidableEq Peer] in
theorem thorough_handleQueryOver (hsound : Sound P l) (h : EachAfter (Thorough config) l.log)
    (hlast : lastEvent l.log = some (.queryOver q)) :
    EachAfter (Thorough config) (l.handleQueryOver q).log := by
  have hover : QueryOver l.log q := mem_of_lastEvent hlast
  rw [Loop.handleQueryOver]
  split
  · exact h
  · rename_i id hq
    dsimp only
    split
    · exact h
    · rename_i entry hentry
      have hmine := (hsound.hold hentry).queryOver hq hover
      split
      · rename_i houtstanding
        have hdrop : EachAfter (Thorough config) (Loop.drop
          { l with providerQueries := l.providerQueries.erase q } id).log := h
        exact thorough_finish hdrop fun _ => hmine.mine.exhausted houtstanding rfl
          fun _ => ⟨q, (hsound.numbered.queries q id hq).2⟩
      · exact h

/-- **A premature end**: the last request that a fetch waits for is answered without what
was asked for, or fails, when a query was already started on behalf of the fetch. -/
def Premature (P : Platform) (l : Loop Peer) (e : Event Peer) : Prop :=
  ∃ r id entry, e.about = some r ∧ l.pending.lookup r = some id ∧
    l.fetches.lookup id = some entry ∧ entry.outstanding ≤ 1 ∧
    (∀ peer response, e = .response peer r response → Loop.brings P entry response = none) ∧
    ∃ q, Queried l.log id q

theorem thorough_handleResponse {peer : Peer} {response : BlobResponse} (hsound : Sound P l)
    (h : EachAfter (Thorough config) l.log)
    (hlast : lastEvent l.log = some (.response peer r response))
    (hmature : ∀ id entry, l.pending.lookup r = some id → l.fetches.lookup id = some entry →
      entry.outstanding ≤ 1 → Loop.brings P entry response = none → ∀ q, ¬Queried l.log id q) :
    EachAfter (Thorough config) (l.handleResponse P config peer r response).log := by
  have hanswered : Answered l.log r := Or.inl ⟨peer, response, mem_of_lastEvent hlast⟩
  rw [Loop.handleResponse]
  split
  · exact h
  · rename_i id hr
    dsimp only
    split
    · exact h
    · rename_i entry hentry
      split
      · rename_i body hbrings
        have hdrop : EachAfter (Thorough config) (Loop.drop { l with
            pending := l.pending.erase r
            ledgers := l.ledgers.insert peer ((l.ledger peer).took body.length) } id).log := h
        exact thorough_finish hdrop fun hbody => absurd hbody (by simp)
      · rename_i hbrings
        refine thorough_exhausted ((hsound.hold hentry).answered hr hanswered).keep h ?_
        intro entry' hentry' houtstanding
        obtain rfl := Option.some.inj ((AList.lookup_insert _).symm.trans hentry')
        exact hmature id entry hr hentry (Nat.sub_eq_zero_iff_le.mp houtstanding) hbrings

omit [DecidableEq Peer] in
theorem thorough_handleFailure (hsound : Sound P l) (h : EachAfter (Thorough config) l.log)
    (hlast : lastEvent l.log = some (.outboundFailure r))
    (hmature : ∀ id entry, l.pending.lookup r = some id → l.fetches.lookup id = some entry →
      entry.outstanding ≤ 1 → ∀ q, ¬Queried l.log id q) :
    EachAfter (Thorough config) (l.handleFailure config r).log := by
  have hanswered : Answered l.log r := Or.inr (mem_of_lastEvent hlast)
  rw [Loop.handleFailure]
  split
  · exact h
  · rename_i id hr
    dsimp only
    split
    · exact h
    · rename_i entry hentry
      refine thorough_exhausted ((hsound.hold hentry).answered hr hanswered).keep h ?_
      intro entry' hentry' houtstanding
      obtain rfl := Option.some.inj ((AList.lookup_insert _).symm.trans hentry')
      exact hmature id entry hr hentry (Nat.sub_eq_zero_iff_le.mp houtstanding)

omit [DecidableEq Peer] in
theorem thorough_timeOut {rs : List (ℕ × Pending Peer)} (h : EachAfter (Thorough config) l.log) :
    EachAfter (Thorough config) (rs.foldl Loop.timeOut l).log := by
  induction rs generalizing l with
  | nil => exact h
  | cons r rs ih =>
    have hdrop : EachAfter (Thorough config) (l.drop r.1).log := h
    exact ih (thorough_finish hdrop fun hbody => absurd hbody (by simp))

theorem thorough_handleProviders {providers : List Peer} (h : EachAfter (Thorough config) l.log) :
    EachAfter (Thorough config) (l.handleProviders localPeer q providers).log := by
  rw [Loop.handleProviders]
  split
  · exact h
  · rename_i id _
    split
    · exact h
    · rename_i entry _
      have hasked : ∃ es, (Loop.askEach
          (fun entry peer => peer == localPeer || decide (peer ∈ entry.asked)) id providers
          (l, entry)).1.log = l.log ++ es ∧ ∀ e ∈ es, ∃ requestId peer,
          e = .asked id requestId peer := Loop.askEach_log
      obtain ⟨es, hlog, hes⟩ := hasked
      have hthorough := thorough_append_asked h hes
      rw [← hlog] at hthorough
      exact hthorough

/-- **One turn** keeps the search thorough, if no end is premature. -/
theorem thorough_after {e : Event Peer} (hsound : Sound P l) (hmature : ¬Premature P l e)
    (h : EachAfter (Thorough config) l.log) :
    EachAfter (Thorough config) (l.after P config localPeer e).log := by
  have hrecorded : Sound P (l.record (.happened e)) :=
    hsound.quiet [.happened e] rfl (by simp [Entry.fetch?]) rfl rfl rfl rfl rfl rfl
  have hlast : lastEvent (l.record (.happened e)).log = some e := lastEvent_happened
  have hthorough : EachAfter (Thorough config) (l.record (.happened e)).log :=
    eachAfter_concat.mpr ⟨h, trivial⟩
  have hqueried : ∀ {id q}, Queried (l.record (.happened e)).log id q → Queried l.log id q :=
    fun hq => (queried_concat.mp hq).resolve_right (by simp)
  rw [Loop.after]
  cases e with
  | command c now =>
    cases c with
    | fetch request reply => exact thorough_handleFetch hrecorded hthorough
    | announce key starts =>
      rw [Loop.handle, Loop.handleCommand]
      split
      · exact hthorough
      · split
        · exact hthorough
        · split <;> exact eachAfter_concat.mpr ⟨hthorough, trivial⟩
    | look => exact hthorough
  | sweep now => exact thorough_timeOut hthorough
  | connectionEstablished peer =>
    rw [Loop.handle]
    split <;> exact hthorough
  | connectionClosed peer numEstablished =>
    rw [Loop.handle]
    split <;> exact hthorough
  | foundProviders query providers => exact thorough_handleProviders hthorough
  | queryOver query => exact thorough_handleQueryOver hrecorded hthorough hlast
  | request peer request found => exact eachAfter_concat.mpr ⟨hthorough, trivial⟩
  | response peer requestId response =>
    refine thorough_handleResponse hrecorded hthorough hlast ?_
    intro id entry hr hentry houtstanding hbrings q hq
    refine hmature ⟨requestId, id, entry, rfl, hr, hentry, houtstanding, ?_, q, hqueried hq⟩
    intro peer' response' heq
    obtain ⟨-, -, rfl⟩ := Event.response.inj heq
    exact hbrings
  | outboundFailure requestId =>
    refine thorough_handleFailure hrecorded hthorough hlast ?_
    intro id entry hr hentry houtstanding q hq
    exact hmature ⟨requestId, id, entry, rfl, hr, hentry, houtstanding,
      fun peer response heq => absurd heq (by simp), q, hqueried hq⟩
  | other => exact hthorough

/-- A turn that ends nothing prematurely. -/
def matureStep (P : Platform) (config : PeerConfig) (localPeer : Peer) :
    Loop Peer → Event Peer → Loop Peer → Prop :=
  stepOf (fun l e => ¬Premature P l e) fun l e => some (l.after P config localPeer e)

/-- **That nothing was found is said when all have been asked**, and the directory is
asked once for a fetch: in every run in which no end is premature. -/
theorem notFound_when_exhausted {es : List (Event Peer)}
    (hrun : Runs (matureStep P config localPeer) .start es l) :
    EachAfter (Thorough config) l.log := by
  have hinvariant : Sound P l ∧ EachAfter (Thorough config) l.log := by
    refine hrun.invariant (I := fun l => Sound P l ∧ EachAfter (Thorough config) l.log) ?_
      ⟨sound_start, eachAfter_nil⟩
    rintro l e l' ⟨hsound, hthorough⟩ ⟨hmature, hafter⟩
    obtain rfl := Option.some.inj hafter
    exact ⟨hsound.after e, thorough_after hsound hmature hthorough⟩
  exact hinvariant.2

/-! ### A search that is cut short -/

/-- A loop that asks the directory. -/
def searching : PeerConfig where
  serve := false
  discovery := true
  announce := false
  fetchTimeout := 10

/-- A body is wanted, and nobody is connected. -/
def wanted : Event ℕ := .command (.fetch (.content 0) 7) 0

/-- The directory finds one peer, and that one fails: the directory still looks. -/
def cutShort : List (Event ℕ) := [wanted, .foundProviders 0 [2], .outboundFailure 0]

theorem byStanding_of_connected_eq_nil (h : l.connected = []) : l.byStanding = [] := by
  rw [Loop.byStanding, h]
  exact List.mergeSort_nil

/-- What is done, and when. -/
theorem log_cutShort : (Loop.run .sample searching 0 cutShort).log =
    [.happened wanted, .accepted 0 (.content 0) 7 10, .queried 0 0,
      .happened (.foundProviders 0 [2]), .asked 0 0 2, .happened (.outboundFailure 0)] ++
      [.replied 0 7 (.error .notFound)] := by
  rw [Loop.run, cutShort, List.foldl_cons, Loop.after, wanted, Loop.handle, Loop.handleCommand,
    Loop.handleFetch]
  dsimp only
  rw [byStanding_of_connected_eq_nil]
  · rfl
  · rfl

/-- **A fetch is told that nothing was found** while its query still runs. -/
theorem notFound_before_queryOver :
    ¬EachAfter (Thorough searching) (Loop.run .sample searching 0 cutShort).log := by
  intro hthorough
  have hexhausted := hthorough _ _ [] log_cutShort
  have hover := hexhausted.queries 0 (by simp [Queried])
  simp [QueryOver, wanted] at hover

/-- A fetch that is told so when its query is over. -/
theorem notFound_when_exhausted_queryOver : EachAfter (Thorough searching)
    (Loop.run .sample searching 0 [wanted, .queryOver 0]).log := by
  have hrun : Runs (matureStep .sample searching 0) .start [wanted, .queryOver 0]
      (Loop.run .sample searching 0 [wanted, .queryOver 0]) := by
    refine .cons ⟨?_, rfl⟩ (.cons ⟨?_, rfl⟩ (.nil _))
    · rintro ⟨r, id, entry, habout, -⟩
      exact absurd habout (by simp [Event.about, wanted])
    · rintro ⟨r, id, entry, habout, -⟩
      exact absurd habout (by simp [Event.about])
  exact notFound_when_exhausted hrun

end Swarm

end Syndeo
