import Syndeo.Peer.Fetching

/-!
# What a turn of the loop keeps

Each handler is put together from what the loop does for one fetch; so whatever
happens, a loop that is sound is left sound (`Syndeo.Swarm.Sound.after`), and what
is in the log stays there (`Syndeo.Swarm.Loop.log_after`).
-/

namespace Syndeo

open Tables Events

namespace Swarm

variable {Peer : Type} {P : Platform} {config : PeerConfig} {log : List (Entry Peer)}
  {id r q : ℕ} {l l' : Loop Peer} {entry entry' : Pending Peer}

/-! ### The handlers -/

theorem Sound.exhausted (h : Sound P l)
    (hcause : ∀ e r, lastEvent l.log = some e → e.about = some r → Asked l.log id r) :
    Sound P (l.exhausted config id) := by
  rw [Loop.exhausted]
  split
  · exact h
  · rename_i entry hentry
    split
    · exact h
    · have hdrop := (h.hold hentry).drop
      split
      · rename_i hstart
        exact (hdrop.startProviderQuery hstart).keep
      · exact hdrop.finish (AList.lookup_erase _ _) (fun _ hbody => absurd hbody (by simp)) hcause

theorem Sound.handleFailure (h : Sound P l) (hlast : lastEvent l.log = some (.outboundFailure r)) :
    Sound P (l.handleFailure config r) := by
  have hanswered : Answered l.log r := Or.inr (mem_of_lastEvent hlast)
  rw [Loop.handleFailure]
  split
  · exact h
  · rename_i id hr
    have hcause : ∀ e r', lastEvent l.log = some e → e.about = some r' → Asked l.log id r' := by
      intro e r' he hr'
      obtain rfl := Option.some.inj (hlast.symm.trans he)
      obtain rfl : r = r' := Option.some.inj hr'
      exact (h.numbered.pending r id hr).2
    dsimp only
    split
    · rename_i hnone
      exact ((h.beside id).answered hr).sound hnone (h.settled id)
    · rename_i entry hentry
      exact (((h.hold hentry).answered hr hanswered).keep).exhausted hcause

theorem Sound.handleQueryOver (h : Sound P l) (hlast : lastEvent l.log = some (.queryOver q)) :
    Sound P (l.handleQueryOver q) := by
  have hover : QueryOver l.log q := mem_of_lastEvent hlast
  rw [Loop.handleQueryOver]
  split
  · exact h
  · rename_i id hq
    dsimp only
    split
    · rename_i hnone
      exact ((h.beside id).queryOver q).sound hnone (h.settled id)
    · rename_i entry hentry
      have hmine := (h.hold hentry).queryOver hq hover
      split
      · refine hmine.drop.finish (AList.lookup_erase _ _) (fun _ hbody => absurd hbody (by simp)) ?_
        intro e r he hr
        obtain rfl := Option.some.inj (hlast.symm.trans he)
        exact absurd hr (by simp [Event.about])
      · exact hmine.keep

/-- What is taken from a peer is what was asked for. -/
theorem names_of_brings {response : BlobResponse} {body : Bytes}
    (h : Loop.brings P entry response = some body) :
    entry.request.Names P body ∧ body.length ≤ maxBody := by
  cases response with
  | «have» body' =>
    rw [Loop.brings] at h
    split at h
    · rename_i hbody
      obtain rfl : body' = body := Option.some.inj h
      exact ⟨BlobRequest.isSatisfiedBy_iff.mp hbody.2, hbody.1⟩
    · exact absurd h (by simp)
  | _ => exact absurd h (by simp [Loop.brings])

/-- **A fetch that is taken up** has asked for nothing yet. -/
theorem Sound.accept (h : Sound P l) (request : BlobRequest) (reply deadline : ℕ) :
    Holds P ({ l with nextFetch := l.nextFetch + 1 }.record
        (.accepted l.nextFetch request reply deadline)) l.nextFetch
      { request := request
        reply := some reply
        outstanding := 0
        asked := ∅
        query := none
        deadline := deadline } := by
  have hnew : ∀ e : Entry Peer, e = .accepted l.nextFetch request reply deadline →
      ∀ id, e.fetch? = some id → id = l.nextFetch := by
    rintro _ rfl id hid
    exact (Option.some.inj hid).symm
  have hnumbered : Numbered P ({ l with nextFetch := l.nextFetch + 1 }.record
      (.accepted l.nextFetch request reply deadline)) := by
    refine h.numbered.frame [.accepted l.nextFetch request reply deadline] rfl ?_ ?_
      (by simp [Asked]) (Nat.le_succ _) le_rfl (fun id entry hentry => (h.numbered.fetches id entry hentry).trans
        (Nat.lt_succ_self _)) ?_ ?_
    · refine eachAfter_concat.mpr ⟨h.numbered.honest, fun _ _ _ haccepted => ?_⟩
      exact absurd (h.numbered.accepted _ _ _ _ haccepted) (lt_irrefl _)
    · intro e he id hid
      rw [hnew e (List.mem_singleton.mp he) id hid]
      exact Nat.lt_succ_self _
    · exact fun r id hr => (h.numbered.pending r id hr).imp_right Asked.mono
    · exact fun q id hq => (h.numbered.queries q id hq).imp_right Queried.mono
  refine ⟨(h.beside _).frame [.accepted l.nextFetch request reply deadline] rfl
    (fun e he => hnew e (List.mem_singleton.mp he)) hnumbered (fun _ _ => rfl)
    (fun _ _ _ hr => hr) (fun _ _ _ hq => hq) fun _ _ => rfl, ?_⟩
  constructor
  · symm
    by_contra hcount
    obtain ⟨r, id, hr, hid⟩ := count_pos_iff.mp (Nat.pos_of_ne_zero hcount)
    obtain rfl : id = l.nextFetch := beq_iff_eq.mp hid
    exact absurd (h.numbered.asked _ r (h.numbered.pending r _ hr).2).1 (lt_irrefl _)
  · intro r hasked
    rcases asked_concat.mp hasked with hasked | ⟨peer, heq⟩
    · exact absurd (h.numbered.asked _ r hasked).1 (lt_irrefl _)
    · exact absurd heq (by simp)
  · intro q hqueried
    rcases queried_concat.mp hqueried with hqueried | heq
    · exact absurd (h.numbered.queried _ q hqueried) (lt_irrefl _)
    · exact absurd heq (by simp)
  · exact fun q hq => absurd (h.numbered.queried _ q (h.numbered.queries q _ hq).2) (lt_irrefl _)
  · exact fun q hq => absurd hq (by simp)
  · intro hreplied
    rcases replied_concat.mp hreplied with hreplied | ⟨_, _, heq⟩
    · exact absurd (h.numbered.replied _ hreplied) (lt_irrefl _)
    · exact absurd heq (by simp)
  · exact ⟨reply, rfl, List.mem_append_right _ List.mem_cons_self⟩

/-- What ends a fetch at its deadline. -/
def Loop.timeOut (self : Loop Peer) (r : ℕ × Pending Peer) : Loop Peer :=
  (self.drop r.1).finish r.1 r.2 (.error .timeout)

theorem Loop.fetches_finish {outcome : Outcome} :
    (l.finish id entry outcome).fetches = l.fetches := by
  rw [Loop.finish]
  split <;> rfl

theorem Loop.fetches_timeOut {r : ℕ × Pending Peer} :
    (l.timeOut r).fetches = l.fetches.erase r.1 := by
  rw [Loop.timeOut, Loop.fetches_finish]
  rfl

/-- What is left when fetches have been ended. -/
theorem Loop.lookup_timeOut {rs : List (ℕ × Pending Peer)} :
    (rs.foldl Loop.timeOut l).fetches.lookup id =
      if id ∈ rs.map Prod.fst then none else l.fetches.lookup id := by
  induction rs generalizing l with
  | nil => rfl
  | cons r rs ih =>
    rw [List.foldl_cons, ih, Loop.fetches_timeOut, List.map_cons]
    by_cases hid : id = r.1
    · rw [hid, AList.lookup_erase, ite_self, if_pos List.mem_cons_self]
    · rw [AList.lookup_erase_ne hid]
      simp only [List.mem_cons, hid, false_or]

/-- Fetches are ended, one after the other. -/
theorem Sound.timeOut {rs : List (ℕ × Pending Peer)} (h : Sound P l)
    (hrs : ∀ r ∈ rs, l.fetches.lookup r.1 = some r.2) (hnodup : (rs.map Prod.fst).Nodup)
    (hlast : ∀ e, lastEvent l.log = some e → e.about = none) :
    Sound P (rs.foldl Loop.timeOut l) := by
  induction rs generalizing l with
  | nil => exact h
  | cons r rs ih =>
    rw [List.map_cons, List.nodup_cons] at hnodup
    have hhold := (h.hold (hrs r List.mem_cons_self)).drop
    obtain ⟨reply, hreply, -⟩ := hhold.mine.owed
    have hlog : (l.timeOut r).log = l.log ++ [.replied r.1 reply (.error .timeout)] := by
      rw [Loop.timeOut, Loop.finish, hreply]
      rfl
    refine ih (hhold.finish (AList.lookup_erase _ _) (fun _ hbody => absurd hbody (by simp)) ?_)
      ?_ hnodup.2 ?_
    · exact fun e r' he hr' => absurd hr' (by simp [hlast e he])
    · intro r' hr'
      have hne : r'.1 ≠ r.1 := fun heq =>
        hnodup.1 (heq ▸ List.mem_map_of_mem hr')
      rw [Loop.fetches_timeOut, AList.lookup_erase_ne hne]
      exact hrs r' (List.mem_cons_of_mem _ hr')
    · intro e he
      rw [hlog, lastEvent_append (by simp [Entry.fetch?])] at he
      exact hlast e he

theorem Sound.expire {now : ℕ} (h : Sound P l) (hlast : lastEvent l.log = some (.sweep now)) :
    Sound P (l.expire now) := by
  refine h.timeOut (fun r hr => ?_) (nodup_keys_rows.sublist (List.filter_sublist.map _)) ?_
  · exact mem_rows_iff.mp (List.mem_filter.mp hr).1
  · intro e he
    obtain rfl := Option.some.inj (hlast.symm.trans he)
    rfl

/-- **A sweep leaves no fetch** whose time is over. -/
theorem Loop.lt_deadline_of_expire {now : ℕ} (h : (l.expire now).fetches.lookup id = some entry) :
    now < entry.deadline := by
  have hlookup : (l.expire now).fetches.lookup id = _ := Loop.lookup_timeOut
  rw [hlookup] at h
  split at h
  · exact absurd h (by simp)
  · rename_i hid
    by_contra hle
    refine hid (List.mem_map.mpr ⟨(id, entry), List.mem_filter.mpr ⟨mem_rows_iff.mpr h, ?_⟩, rfl⟩)
    simpa using hle

variable [DecidableEq Peer]

theorem Loop.askEach_fetches {skip : Pending Peer → Peer → Bool} {peers : List Peer}
    {r : Loop Peer × Pending Peer} :
    (Loop.askEach skip id peers r).1.fetches = r.1.fetches := by
  induction peers generalizing r with
  | nil => rfl
  | cons peer peers ih =>
    rw [Loop.askEach, ih]
    split <;> rfl

theorem Loop.askEach_query {skip : Pending Peer → Peer → Bool} {peers : List Peer}
    {r : Loop Peer × Pending Peer} :
    (Loop.askEach skip id peers r).2.query = r.2.query := by
  induction peers generalizing r with
  | nil => rfl
  | cons peer peers ih =>
    rw [Loop.askEach, ih]
    split <;> rfl

/-- What asking adds to the log. -/
theorem Loop.askEach_log {skip : Pending Peer → Peer → Bool} {peers : List Peer}
    {r : Loop Peer × Pending Peer} :
    ∃ es, (Loop.askEach skip id peers r).1.log = r.1.log ++ es ∧
      ∀ e ∈ es, ∃ requestId peer, e = .asked id requestId peer := by
  induction peers generalizing r with
  | nil => exact ⟨[], (List.append_nil _).symm, by simp⟩
  | cons peer peers ih =>
    rw [Loop.askEach]
    split
    · exact ih
    · obtain ⟨es, hlog, hes⟩ := ih (r := r.1.ask id r.2 peer)
      refine ⟨.asked id r.1.nextRequest peer :: es, ?_, ?_⟩
      · rw [hlog]
        exact List.append_assoc _ _ _
      · intro e he
        rcases List.mem_cons.mp he with rfl | he
        · exact ⟨_, _, rfl⟩
        · exact hes e he

theorem Sound.handleResponse {peer : Peer} {response : BlobResponse} (h : Sound P l)
    (hlast : lastEvent l.log = some (.response peer r response)) :
    Sound P (l.handleResponse P config peer r response) := by
  have hanswered : Answered l.log r := Or.inl ⟨peer, response, mem_of_lastEvent hlast⟩
  rw [Loop.handleResponse]
  split
  · exact h
  · rename_i id hr
    have hcause : ∀ e r', lastEvent l.log = some e → e.about = some r' → Asked l.log id r' := by
      intro e r' he hr'
      obtain rfl := Option.some.inj (hlast.symm.trans he)
      obtain rfl : r = r' := Option.some.inj hr'
      exact (h.numbered.pending r id hr).2
    dsimp only
    split
    · rename_i hnone
      exact ((h.beside id).answered hr).sound hnone (h.settled id)
    · rename_i entry hentry
      split
      · rename_i body hbrings
        have hpaid : Sound P { l with
            ledgers := l.ledgers.insert peer ((l.ledger peer).took body.length) } :=
          h.quiet [] (List.append_nil _).symm (by simp) rfl rfl rfl rfl rfl rfl
        refine ((hpaid.hold hentry).answered hr hanswered).drop.finish (AList.lookup_erase _ _) ?_
          hcause
        intro body' hbody'
        obtain rfl : body = body' := Except.ok.inj hbody'
        exact names_of_brings hbrings
      · exact (((h.hold hentry).answered hr hanswered).keep).exhausted hcause

theorem Sound.handleProviders {localPeer : Peer} {providers : List Peer} (h : Sound P l) :
    Sound P (l.handleProviders localPeer q providers) := by
  rw [Loop.handleProviders]
  split
  · exact h
  · rename_i id hq
    split
    · exact h
    · rename_i entry hentry
      exact (Holds.askEach (r := (l, entry)) (h.hold hentry)).keep

theorem Sound.handleFetch {request : BlobRequest} {reply now : ℕ} (h : Sound P l)
    (hlast : ∀ e, lastEvent l.log = some e → e.about = none) :
    Sound P (l.handleFetch config request reply now) := by
  rw [Loop.handleFetch]
  dsimp only
  generalize hr : (Loop.askEach _ _ _ _ : Loop Peer × Pending Peer) = r
  have hhold : Holds P r.1 l.nextFetch r.2 := by
    rw [← hr]
    exact Holds.askEach (h.accept request reply (now + config.fetchTimeout))
  have hasked : ∃ es, r.1.log = (l.log ++
      [.accepted l.nextFetch request reply (now + config.fetchTimeout)]) ++ es ∧
      ∀ e ∈ es, ∃ requestId peer, e = .asked l.nextFetch requestId peer := by
    rw [← hr]
    exact Loop.askEach_log
  have hlog : ∃ es, r.1.log = l.log ++ es ∧ ∀ e ∈ es, e.fetch?.isSome := by
    obtain ⟨es, hlog, hes⟩ := hasked
    refine ⟨_, hlog.trans (List.append_assoc _ _ _), fun e he => ?_⟩
    rcases List.mem_cons.mp he with rfl | he
    · rfl
    · obtain ⟨_, _, rfl⟩ := hes e he
      rfl
  split
  · split
    · rename_i hstart
      exact (hhold.startProviderQuery hstart).keep
    · refine hhold.finish ?_ (fun _ hbody => absurd hbody (by simp)) ?_
      · rw [← hr, Loop.askEach_fetches]
        rcases hlookup : l.fetches.lookup l.nextFetch with _ | entry
        · exact hlookup
        · exact absurd (h.numbered.fetches _ entry hlookup) (lt_irrefl _)
      · intro e r' he hr'
        obtain ⟨es, hlog, hes⟩ := hlog
        rw [hlog, lastEvent_append hes] at he
        exact absurd hr' (by simp [hlast e he])
  · exact hhold.keep

theorem Sound.handleCommand {c : Command} {now : ℕ} (h : Sound P l)
    (hlast : lastEvent l.log = some (.command c now)) : Sound P (l.handleCommand config now c) := by
  cases c with
  | fetch request reply =>
    refine h.handleFetch fun e he => ?_
    obtain rfl := Option.some.inj (hlast.symm.trans he)
    rfl
  | announce key starts =>
    have hprovided : ∀ e ∈ [Entry.provided key], (e : Entry Peer).fetch? = none := by
      simp [Entry.fetch?]
    rw [Loop.handleCommand]
    split
    · exact h
    · split
      · exact h
      · split <;> exact h.quiet [.provided key] rfl hprovided rfl rfl rfl rfl rfl rfl
  | look => exact h

theorem Sound.handleRequest {peer : Peer} {found : Option Bytes} (h : Sound P l) :
    Sound P (l.handleRequest config peer found) :=
  h.quiet [.answered peer _] rfl (by simp [Entry.fetch?]) rfl rfl rfl rfl rfl rfl

/-- **One turn** of a loop that is sound leaves one that is. -/
theorem Sound.after {localPeer : Peer} (h : Sound P l) (e : Event Peer) :
    Sound P (l.after P config localPeer e) := by
  have hrecorded : Sound P (l.record (.happened e)) :=
    h.quiet [.happened e] rfl (by simp [Entry.fetch?]) rfl rfl rfl rfl rfl rfl
  have hlast : lastEvent (l.record (.happened e)).log = some e := lastEvent_happened
  rw [Loop.after]
  cases e with
  | command c now => exact hrecorded.handleCommand hlast
  | sweep now => exact hrecorded.expire hlast
  | connectionEstablished peer =>
    rw [Loop.handle]
    split
    · exact hrecorded
    · exact hrecorded.quiet [] (List.append_nil _).symm (by simp) rfl rfl rfl rfl rfl rfl
  | connectionClosed peer numEstablished =>
    rw [Loop.handle]
    split
    · exact hrecorded.quiet [] (List.append_nil _).symm (by simp) rfl rfl rfl rfl rfl rfl
    · exact hrecorded
  | foundProviders query providers => exact hrecorded.handleProviders
  | queryOver query => exact hrecorded.handleQueryOver hlast
  | request peer request found => exact hrecorded.handleRequest
  | response peer requestId response => exact hrecorded.handleResponse hlast
  | outboundFailure requestId => exact hrecorded.handleFailure hlast
  | other => exact hrecorded

omit [DecidableEq Peer] in
theorem sound_start : Sound P (Loop.start : Loop Peer) := by
  refine ⟨⟨?_, ?_, ?_, ?_, ?_, ?_, ?_, eachAfter_nil⟩, ?_, ?_⟩
  · exact fun id entry hentry => absurd hentry (by simp [Loop.start])
  · exact fun id request reply deadline hm => absurd hm (by simp [Loop.start])
  · exact fun id r ⟨_, hm⟩ => absurd hm (by simp [Loop.start])
  · exact fun id q hm => absurd hm List.not_mem_nil
  · exact fun id ⟨_, _, hm⟩ => absurd hm (by simp [Loop.start])
  · exact fun r id hr => absurd hr (by simp [Loop.start])
  · exact fun q id hq => absurd hq (by simp [Loop.start])
  · exact fun id entry hentry => absurd hentry (by simp [Loop.start])
  · exact fun id request reply deadline hm => absurd hm (by simp [Loop.start])

/-! ### The log grows -/

omit [DecidableEq Peer] in
theorem Loop.log_finish (l : Loop Peer) {outcome : Outcome} : l.log <+: (l.finish id entry outcome).log := by
  rw [Loop.finish]
  split
  · exact List.prefix_append _ _
  · exact List.prefix_rfl

omit [DecidableEq Peer] in
theorem Loop.log_startProviderQuery
    (hstart : l.startProviderQuery config id entry = some (l', entry')) : l.log <+: l'.log := by
  obtain ⟨-, -, rfl, -⟩ := Loop.startProviderQuery_eq_some hstart
  exact List.prefix_append _ _

theorem Loop.log_askEach {skip : Pending Peer → Peer → Bool} {peers : List Peer}
    (r : Loop Peer × Pending Peer) : r.1.log <+: (Loop.askEach skip id peers r).1.log := by
  have hlog : ∃ es, (Loop.askEach skip id peers r).1.log = r.1.log ++ es ∧
      ∀ e ∈ es, ∃ requestId peer, e = .asked id requestId peer := Loop.askEach_log
  obtain ⟨es, hlog, -⟩ := hlog
  exact ⟨es, hlog.symm⟩

omit [DecidableEq Peer] in
theorem Loop.log_exhausted (l : Loop Peer) : l.log <+: (l.exhausted config id).log := by
  rw [Loop.exhausted]
  split
  · exact List.prefix_rfl
  · rename_i entry hentry
    split
    · exact List.prefix_rfl
    · split
      · rename_i hstart
        have hlog := log_startProviderQuery hstart
        exact hlog
      · exact (l.drop id).log_finish

omit [DecidableEq Peer] in
theorem Loop.log_timeOut {rs : List (ℕ × Pending Peer)} :
    l.log <+: (rs.foldl Loop.timeOut l).log := by
  induction rs generalizing l with
  | nil => exact List.prefix_rfl
  | cons r rs ih =>
    have hlog : l.log <+: (l.timeOut r).log := (l.drop r.1).log_finish
    exact hlog.trans ih

theorem Loop.log_handleFetch {request : BlobRequest} {reply now : ℕ} :
    l.log ++ [.accepted l.nextFetch request reply (now + config.fetchTimeout)] <+:
      (l.handleFetch config request reply now).log := by
  rw [Loop.handleFetch]
  dsimp only
  generalize hr : (Loop.askEach _ _ _ _ : Loop Peer × Pending Peer) = r
  have hlog : l.log ++ [.accepted l.nextFetch request reply (now + config.fetchTimeout)] <+:
      r.1.log := by
    have hasked : ∃ es, r.1.log = (l.log ++
        [.accepted l.nextFetch request reply (now + config.fetchTimeout)]) ++ es ∧
        ∀ e ∈ es, ∃ requestId peer, e = .asked l.nextFetch requestId peer := by
      rw [← hr]
      exact Loop.askEach_log
    obtain ⟨es, hlog, -⟩ := hasked
    exact ⟨es, hlog.symm⟩
  refine hlog.trans ?_
  split
  · split
    · rename_i hstart
      have hlog := log_startProviderQuery hstart
      exact hlog
    · exact r.1.log_finish
  · exact List.prefix_rfl

theorem Loop.log_handleCommand {c : Command} {now : ℕ} :
    l.log <+: (l.handleCommand config now c).log := by
  cases c with
  | fetch request reply => exact (List.prefix_append _ _).trans log_handleFetch
  | announce key starts =>
    rw [Loop.handleCommand]
    split
    · exact List.prefix_rfl
    · split
      · exact List.prefix_rfl
      · split <;> exact List.prefix_append _ _
  | look => exact List.prefix_rfl

theorem Loop.log_handleProviders {localPeer : Peer} {providers : List Peer} :
    l.log <+: (l.handleProviders localPeer q providers).log := by
  rw [Loop.handleProviders]
  split
  · exact List.prefix_rfl
  · rename_i id _
    split
    · exact List.prefix_rfl
    · rename_i entry _
      exact log_askEach (l, entry)

omit [DecidableEq Peer] in
theorem Loop.log_handleQueryOver : l.log <+: (l.handleQueryOver q).log := by
  rw [Loop.handleQueryOver]
  split
  · exact List.prefix_rfl
  · dsimp only
    split
    · exact List.prefix_rfl
    · split
      · exact Loop.log_finish (Loop.drop { l with providerQueries := _ } _)
      · exact List.prefix_rfl

theorem Loop.log_handleResponse {peer : Peer} {response : BlobResponse} :
    l.log <+: (l.handleResponse P config peer r response).log := by
  rw [Loop.handleResponse]
  split
  · exact List.prefix_rfl
  · dsimp only
    split
    · exact List.prefix_rfl
    · split
      · exact Loop.log_finish (Loop.drop { l with pending := _, ledgers := _ } _)
      · exact Loop.log_exhausted (Loop.keep { l with pending := _ } _ _)

omit [DecidableEq Peer] in
theorem Loop.log_handleFailure : l.log <+: (l.handleFailure config r).log := by
  rw [Loop.handleFailure]
  split
  · exact List.prefix_rfl
  · dsimp only
    split
    · exact List.prefix_rfl
    · exact Loop.log_exhausted (Loop.keep { l with pending := _ } _ _)

theorem Loop.log_handle {localPeer : Peer} (e : Event Peer) :
    l.log <+: (l.handle P config localPeer e).log := by
  cases e with
  | command c now => exact log_handleCommand
  | sweep now => exact log_timeOut
  | connectionEstablished peer =>
    rw [Loop.handle]
    split <;> exact List.prefix_rfl
  | connectionClosed peer numEstablished =>
    rw [Loop.handle]
    split <;> exact List.prefix_rfl
  | foundProviders query providers => exact log_handleProviders
  | queryOver query => exact log_handleQueryOver
  | request peer request found => exact List.prefix_append _ _
  | response peer requestId response => exact log_handleResponse
  | outboundFailure requestId => exact log_handleFailure
  | other => exact List.prefix_rfl

/-- **What is in the log stays there.** -/
theorem Loop.log_after {localPeer : Peer} (e : Event Peer) :
    l.log ++ [.happened e] <+: (l.after P config localPeer e).log :=
  Loop.log_handle (l := l.record (.happened e)) e

end Swarm

end Syndeo
