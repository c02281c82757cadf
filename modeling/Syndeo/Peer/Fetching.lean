import Syndeo.Concurrent.Events
import Syndeo.Peer.Swarm

/-!
# The life of a fetch

A fetch is accepted, asks peers and the directory, and is answered. What is to hold
of it is said of the log (`Events.EachAfter`): of each entry, and of what came
before it (`Syndeo.Swarm.Honest`). What the state then says of the log, for each
fetch that is in flight, is `Syndeo.Swarm.Tracked`.

The loop takes a fetch in hand, works on it, and puts it back or ends it. In
between, what is known of the others stays known (`Syndeo.Swarm.Beside.frame`),
and each thing that the loop does on behalf of the one in hand keeps what is known
of that one too.
-/

namespace Syndeo

open Tables Events

namespace Swarm

variable {Peer : Type} {P : Platform} {config : PeerConfig} {log : List (Entry Peer)}
  {id r q : ℕ}

/-! ### What the log says -/

/-- A request was sent on behalf of a fetch. -/
def Asked (log : List (Entry Peer)) (id r : ℕ) : Prop := ∃ peer, Entry.asked id r peer ∈ log

/-- A request was answered, or failed. -/
def Answered (log : List (Entry Peer)) (r : ℕ) : Prop :=
  (∃ peer response, Entry.happened (.response peer r response) ∈ log) ∨
    Entry.happened (.outboundFailure r) ∈ log

/-- A query was started on behalf of a fetch. -/
def Queried (log : List (Entry Peer)) (id q : ℕ) : Prop := Entry.queried id q ∈ log

/-- A query has finished, or failed. -/
def QueryOver (log : List (Entry Peer)) (q : ℕ) : Prop := Entry.happened (.queryOver q) ∈ log

/-- A fetch was answered. -/
def Replied (log : List (Entry Peer)) (id : ℕ) : Prop :=
  ∃ reply outcome, Entry.replied id reply outcome ∈ log

/-- All that a fetch has asked has been answered; and the directory was asked, if there
is one. -/
structure Exhausted (config : PeerConfig) (log : List (Entry Peer)) (id : ℕ) : Prop where
  peers : ∀ r, Asked log id r → Answered log r
  queries : ∀ q, Queried log id q → QueryOver log q
  discovery : config.discovery = true → ∃ q, Queried log id q

/-- The request that an event is about. -/
def Event.about : Event Peer → Option ℕ
  | .response _ r _ => some r
  | .outboundFailure r => some r
  | _ => none

/-- What happened last. -/
def lastEvent (log : List (Entry Peer)) : Option (Event Peer) :=
  log.reverse.findSome? fun
    | .happened e => some e
    | _ => none

/-- **What is to hold of an answer**: it is the first, on the channel of the fetch; a
body is what was asked for; and if it is given because of a request, that request was
on behalf of the fetch. -/
def Honest (P : Platform) (before : List (Entry Peer)) : Entry Peer → Prop
  | .accepted id _ _ _ => ∀ request reply deadline, Entry.accepted id request reply deadline ∉ before
  | .asked _ r _ => ∀ id, ¬Asked before id r
  | .replied id reply outcome =>
    ¬Replied before id ∧
      (∃ request deadline, Entry.accepted id request reply deadline ∈ before ∧
        ∀ body, outcome = .ok body → request.Names P body ∧ body.length ≤ maxBody) ∧
      ∀ e r, lastEvent before = some e → e.about = some r → Asked before id r
  | _ => True

/-- **What is to hold of a search**: nothing is found nowhere before everyone was asked,
and the directory is asked once. -/
def Thorough (config : PeerConfig) (before : List (Entry Peer)) : Entry Peer → Prop
  | .replied id _ (.error .notFound) => Exhausted config before id
  | .queried id _ => ∀ q, ¬Queried before id q
  | _ => True

/-! ### What the state says of the log -/

/-- What is known of a fetch that is not over. -/
structure Tracked (l : Loop Peer) (id : ℕ) (entry : Pending Peer) : Prop where
  outstanding : entry.outstanding = count (fun _ id' => id' == id) l.pending
  asked : ∀ r, Asked l.log id r → Answered l.log r ∨ l.pending.lookup r = some id
  queried : ∀ q, Queried l.log id q → QueryOver l.log q ∨ entry.query = some q
  query : ∀ q, l.providerQueries.lookup q = some id → entry.query = some q
  started : ∀ q, entry.query = some q → Queried l.log id q
  unanswered : ¬Replied l.log id
  owed : ∃ reply, entry.reply = some reply ∧
    Entry.accepted id entry.request reply entry.deadline ∈ l.log

/-- What is known whatever fetch is looked at. -/
structure Numbered (P : Platform) (l : Loop Peer) : Prop where
  fetches : ∀ id entry, l.fetches.lookup id = some entry → id < l.nextFetch
  accepted : ∀ id request reply deadline,
    Entry.accepted id request reply deadline ∈ l.log → id < l.nextFetch
  asked : ∀ id r, Asked l.log id r → id < l.nextFetch ∧ r < l.nextRequest
  queried : ∀ id q, Queried l.log id q → id < l.nextFetch
  replied : ∀ id, Replied l.log id → id < l.nextFetch
  pending : ∀ r id, l.pending.lookup r = some id → r < l.nextRequest ∧ Asked l.log id r
  queries : ∀ q id, l.providerQueries.lookup q = some id → q < l.nextQuery ∧ Queried l.log id q
  honest : EachAfter (Honest P) l.log

/-- A fetch that was accepted is in flight, or was answered. -/
def Settled (l : Loop Peer) (id : ℕ) : Prop :=
  ∀ request reply deadline, Entry.accepted id request reply deadline ∈ l.log →
    (∃ entry, l.fetches.lookup id = some entry) ∨ Replied l.log id

/-- **The loop between two turns.** -/
structure Sound (P : Platform) (l : Loop Peer) : Prop where
  numbered : Numbered P l
  tracked : ∀ id entry, l.fetches.lookup id = some entry → Tracked l id entry
  settled : ∀ id, Settled l id

/-- **The loop, but for one fetch.** -/
structure Beside (P : Platform) (l : Loop Peer) (id : ℕ) : Prop where
  numbered : Numbered P l
  tracked : ∀ id' entry, id' ≠ id → l.fetches.lookup id' = some entry → Tracked l id' entry
  settled : ∀ id', id' ≠ id → Settled l id'

/-- **The loop while it works on a fetch**, which it has in hand. -/
structure Holds (P : Platform) (l : Loop Peer) (id : ℕ) (entry : Pending Peer) : Prop
    extends Beside P l id where
  mine : Tracked l id entry

variable {l l' : Loop Peer} {entry entry' : Pending Peer} {e : Entry Peer}

/-! ### The log grows -/

/-- The fetch that an entry is about. -/
def Entry.fetch? : Entry Peer → Option ℕ
  | .accepted id _ _ _ => some id
  | .asked id _ _ => some id
  | .queried id _ => some id
  | .replied id _ _ => some id
  | _ => none

theorem Asked.mono {es : List (Entry Peer)} (h : Asked log id r) : Asked (log ++ es) id r :=
  h.imp fun _ hm => List.mem_append_left _ hm

theorem Answered.mono {es : List (Entry Peer)} (h : Answered log r) : Answered (log ++ es) r :=
  h.imp (fun ⟨peer, response, hm⟩ => ⟨peer, response, List.mem_append_left _ hm⟩)
    fun hm => List.mem_append_left _ hm

theorem Queried.mono {es : List (Entry Peer)} (h : Queried log id q) : Queried (log ++ es) id q :=
  List.mem_append_left _ h

theorem QueryOver.mono {es : List (Entry Peer)} (h : QueryOver log q) : QueryOver (log ++ es) q :=
  List.mem_append_left _ h

theorem Replied.mono {es : List (Entry Peer)} (h : Replied log id) : Replied (log ++ es) id :=
  let ⟨reply, outcome, hm⟩ := h
  ⟨reply, outcome, List.mem_append_left _ hm⟩

theorem asked_concat : Asked (log ++ [e]) id r ↔ Asked log id r ∨ ∃ peer, e = .asked id r peer := by
  simp only [Asked, List.mem_append, List.mem_singleton, exists_or, eq_comm]

theorem queried_concat : Queried (log ++ [e]) id q ↔ Queried log id q ∨ e = .queried id q := by
  simp only [Queried, List.mem_append, List.mem_singleton, eq_comm]

theorem replied_concat :
    Replied (log ++ [e]) id ↔ Replied log id ∨ ∃ reply outcome, e = .replied id reply outcome := by
  simp only [Replied, List.mem_append, List.mem_singleton, exists_or, eq_comm]

/-- What is about no fetch does not have to be honest. -/
theorem honest_of_fetch?_eq_none (h : e.fetch? = none) : Honest P log e := by
  cases e with
  | accepted => exact absurd h (by simp [Entry.fetch?])
  | replied => exact absurd h (by simp [Entry.fetch?])
  | _ => trivial

theorem lastEvent_happened {e : Event Peer} : lastEvent (log ++ [.happened e]) = some e := by
  rw [lastEvent, List.reverse_append]
  rfl

theorem mem_of_lastEvent {e : Event Peer} (h : lastEvent log = some e) :
    Entry.happened e ∈ log := by
  obtain ⟨entry, hmem, hentry⟩ := List.exists_of_findSome?_eq_some h
  cases entry with
  | happened e' =>
    obtain rfl : e' = e := Option.some.inj hentry
    exact List.mem_reverse.mp hmem
  | _ => exact absurd hentry (by simp)

/-- What the loop does is not what happens to it. -/
theorem lastEvent_append {es : List (Entry Peer)} (hes : ∀ e ∈ es, e.fetch?.isSome) :
    lastEvent (log ++ es) = lastEvent log := by
  have hnone : es.reverse.findSome? (fun
      | .happened e => some e
      | _ => none) = (none : Option (Event Peer)) := by
    refine List.findSome?_eq_none_iff.mpr fun e he => ?_
    have hfetch := hes e (List.mem_reverse.mp he)
    cases e with
    | happened => exact absurd hfetch (by simp [Entry.fetch?])
    | _ => rfl
  rw [lastEvent, List.reverse_append, List.findSome?_append, hnone]
  rfl

/-! ### Frames -/

/-- What does not concern a fetch leaves what is known of it. -/
theorem Tracked.frame (h : Tracked l id entry) (es : List (Entry Peer))
    (hlog : l'.log = l.log ++ es) (hes : ∀ e ∈ es, e.fetch? ≠ some id)
    (hcount : count (fun _ id' => id' == id) l'.pending = count (fun _ id' => id' == id) l.pending)
    (hpending : ∀ r, l.pending.lookup r = some id → l'.pending.lookup r = some id)
    (hqueries : ∀ q, l'.providerQueries.lookup q = some id →
      l.providerQueries.lookup q = some id) : Tracked l' id entry := by
  have hold : ∀ {e}, e ∈ l.log ++ es → e.fetch? = some id → e ∈ l.log := fun hm hfetch =>
    (List.mem_append.mp hm).resolve_right fun hm => hes _ hm hfetch
  constructor
  · rw [hcount, h.outstanding]
  · rw [hlog]
    rintro r ⟨peer, hm⟩
    exact (h.asked r ⟨peer, hold hm rfl⟩).imp Answered.mono (hpending r)
  · rw [hlog]
    exact fun q hm => (h.queried q (hold hm rfl)).imp_left QueryOver.mono
  · exact fun q hq => h.query q (hqueries q hq)
  · rw [hlog]
    exact fun q hq => (h.started q hq).mono
  · rw [hlog]
    exact fun ⟨reply, outcome, hm⟩ => h.unanswered ⟨reply, outcome, hold hm rfl⟩
  · rw [hlog]
    exact h.owed.imp fun reply howed => ⟨howed.1, List.mem_append_left _ howed.2⟩

/-- What does not take a fetch away, and does not concern it, leaves it settled. -/
theorem Settled.frame (h : Settled l id) (es : List (Entry Peer)) (hlog : l'.log = l.log ++ es)
    (hes : ∀ e ∈ es, e.fetch? ≠ some id)
    (hfetches : l'.fetches.lookup id = l.fetches.lookup id) : Settled l' id := by
  intro request reply deadline haccepted
  rw [hlog] at haccepted ⊢
  have haccepted : Entry.accepted id request reply deadline ∈ l.log :=
    (List.mem_append.mp haccepted).resolve_right fun hm => hes _ hm rfl
  rw [hfetches]
  exact (h request reply deadline haccepted).imp_right Replied.mono

/-- **Entries that name no unknown fetch** keep what is known whatever is looked at. -/
theorem Numbered.frame (h : Numbered P l) (es : List (Entry Peer)) (hlog : l'.log = l.log ++ es)
    (hhonest : EachAfter (Honest P) l'.log)
    (hes : ∀ e ∈ es, ∀ id, e.fetch? = some id → id < l'.nextFetch)
    (hrequests : ∀ id r, Asked es id r → r < l'.nextRequest)
    (hnext : l.nextFetch ≤ l'.nextFetch) (hrequest : l.nextRequest ≤ l'.nextRequest)
    (hfetches : ∀ id entry, l'.fetches.lookup id = some entry → id < l'.nextFetch)
    (hpending : ∀ r id, l'.pending.lookup r = some id → r < l'.nextRequest ∧ Asked l'.log id r)
    (hqueries : ∀ q id, l'.providerQueries.lookup q = some id →
      q < l'.nextQuery ∧ Queried l'.log id q) : Numbered P l' := by
  have hlt : ∀ {e id}, e ∈ l'.log → e.fetch? = some id → (e ∈ l.log → id < l.nextFetch) →
      id < l'.nextFetch := by
    intro e id hm hfetch hbefore
    rw [hlog] at hm
    rcases List.mem_append.mp hm with hm | hm
    · exact (hbefore hm).trans_le hnext
    · exact hes e hm id hfetch
  constructor
  · exact hfetches
  · exact fun id _ _ _ hm => hlt hm rfl (h.accepted id _ _ _)
  · refine fun id r hasked => ⟨?_, ?_⟩
    · obtain ⟨peer, hm⟩ := hasked
      exact hlt hm rfl fun hm => (h.asked id r ⟨peer, hm⟩).1
    · obtain ⟨peer, hm⟩ := hasked
      rw [hlog] at hm
      rcases List.mem_append.mp hm with hm | hm
      · exact (h.asked id r ⟨peer, hm⟩).2.trans_le hrequest
      · exact hrequests id r ⟨peer, hm⟩
  · exact fun id q hm => hlt hm rfl (h.queried id q)
  · exact fun id ⟨reply, outcome, hm⟩ => hlt hm rfl fun hm => h.replied id ⟨reply, outcome, hm⟩
  · exact hpending
  · exact hqueries
  · exact hhonest

/-- **A step on behalf of a fetch** leaves what is known of the others. -/
theorem Beside.frame (h : Beside P l id) (es : List (Entry Peer)) (hlog : l'.log = l.log ++ es)
    (hes : ∀ e ∈ es, ∀ id', e.fetch? = some id' → id' = id) (hnumbered : Numbered P l')
    (hcount : ∀ id', id' ≠ id →
      count (fun _ x => x == id') l'.pending = count (fun _ x => x == id') l.pending)
    (hpending : ∀ r id', id' ≠ id → l.pending.lookup r = some id' →
      l'.pending.lookup r = some id')
    (hqueries : ∀ q id', id' ≠ id → l'.providerQueries.lookup q = some id' →
      l.providerQueries.lookup q = some id')
    (hfetches : ∀ id', id' ≠ id → l'.fetches.lookup id' = l.fetches.lookup id') :
    Beside P l' id := by
  have hother : ∀ {id'}, id' ≠ id → ∀ e ∈ es, e.fetch? ≠ some id' := fun hne e he hfetch =>
    hne (hes e he _ hfetch)
  refine ⟨hnumbered, ?_, ?_⟩
  · intro id' entry' hne hentry
    rw [hfetches id' hne] at hentry
    exact (h.tracked id' entry' hne hentry).frame es hlog (hother hne) (hcount id' hne)
      (fun r => hpending r id' hne) fun q => hqueries q id' hne
  · exact fun id' hne => (h.settled id' hne).frame es hlog (hother hne) (hfetches id' hne)

/-! ### Taking a fetch in hand, and putting it back -/

theorem Sound.beside (h : Sound P l) (id : ℕ) : Beside P l id :=
  ⟨h.numbered, fun id' entry _ => h.tracked id' entry, fun id' _ => h.settled id'⟩

theorem Sound.hold (h : Sound P l) (hentry : l.fetches.lookup id = some entry) :
    Holds P l id entry :=
  ⟨h.beside id, h.tracked id entry hentry⟩

/-- A fetch that is not in flight leaves nothing to look after. -/
theorem Beside.sound (h : Beside P l id) (hnone : l.fetches.lookup id = none)
    (hsettled : Settled l id) : Sound P l := by
  refine ⟨h.numbered, ?_, ?_⟩
  · intro id' entry' hentry
    by_cases hid : id' = id
    · rw [hid, hnone] at hentry
      exact absurd hentry (by simp)
    · exact h.tracked id' entry' hid hentry
  · intro id'
    by_cases hid : id' = id
    · rwa [hid]
    · exact h.settled id' hid

theorem Holds.lt (h : Holds P l id entry) : id < l.nextFetch := by
  obtain ⟨reply, -, haccepted⟩ := h.mine.owed
  exact h.numbered.accepted _ _ _ _ haccepted

/-- A request that was not made is not waited for. -/
theorem Numbered.pending_next (h : Numbered P l) : l.pending.lookup l.nextRequest = none := by
  rcases hlookup : l.pending.lookup l.nextRequest with _ | id
  · rfl
  · exact absurd (h.pending _ id hlookup).1 (lt_irrefl _)

/-- What is put back is tracked. -/
theorem Holds.keep (h : Holds P l id entry) : Sound P (l.keep id entry) := by
  have hlookup : (l.keep id entry).fetches.lookup id = some entry := AList.lookup_insert _
  have hother : ∀ id', id' ≠ id →
      (l.keep id entry).fetches.lookup id' = l.fetches.lookup id' := fun id' hne =>
    AList.lookup_insert_ne hne
  have hlog : (l.keep id entry).log = l.log ++ [] := (List.append_nil _).symm
  have hnumbered : Numbered P (l.keep id entry) := by
    refine h.numbered.frame [] hlog h.numbered.honest (by simp) (by simp [Asked]) le_rfl le_rfl ?_ h.numbered.pending
      h.numbered.queries
    intro id' entry' hentry
    by_cases hid : id' = id
    · rw [hid]
      exact h.lt
    · exact h.numbered.fetches id' entry' ((hother id' hid).symm.trans hentry)
  have hbeside : Beside P (l.keep id entry) id :=
    h.toBeside.frame [] hlog (by simp) hnumbered (fun _ _ => rfl) (fun _ _ _ hr => hr)
      (fun _ _ _ hq => hq) hother
  have hmine : Tracked (l.keep id entry) id entry :=
    h.mine.frame [] hlog (by simp) rfl (fun _ hr => hr) fun _ hq => hq
  refine ⟨hnumbered, ?_, ?_⟩
  · intro id' entry' hentry
    by_cases hid : id' = id
    · subst hid
      obtain rfl := Option.some.inj (hlookup.symm.trans hentry)
      exact hmine
    · exact hbeside.tracked id' entry' hid hentry
  · intro id'
    by_cases hid : id' = id
    · exact fun _ _ _ _ => Or.inl ⟨entry, by rw [hid, hlookup]⟩
    · exact hbeside.settled id' hid

/-- What is taken away is still in hand. -/
theorem Holds.drop (h : Holds P l id entry) : Holds P (l.drop id) id entry := by
  have hlog : (l.drop id).log = l.log ++ [] := (List.append_nil _).symm
  have hother : ∀ id', id' ≠ id → (l.drop id).fetches.lookup id' = l.fetches.lookup id' :=
    fun id' hne => AList.lookup_erase_ne hne
  refine ⟨h.toBeside.frame [] hlog (by simp) ?_ (fun _ _ => rfl) (fun _ _ _ hr => hr)
    (fun _ _ _ hq => hq) hother,
    h.mine.frame [] hlog (by simp) rfl (fun _ hr => hr) fun _ hq => hq⟩
  refine h.numbered.frame [] hlog h.numbered.honest (by simp) (by simp [Asked]) le_rfl le_rfl ?_ h.numbered.pending
    h.numbered.queries
  intro id' entry' hentry
  by_cases hid : id' = id
  · rw [hid]
    exact h.lt
  · exact h.numbered.fetches id' entry' ((hother id' hid).symm.trans hentry)

/-- **A fetch that is over** is answered: once, if it is honest. -/
theorem Holds.finish {outcome : Outcome} (h : Holds P l id entry)
    (hnone : l.fetches.lookup id = none)
    (hbody : ∀ body, outcome = .ok body → entry.request.Names P body ∧ body.length ≤ maxBody)
    (hcause : ∀ e r, lastEvent l.log = some e → e.about = some r → Asked l.log id r) :
    Sound P (l.finish id entry outcome) := by
  obtain ⟨reply, hreply, haccepted⟩ := h.mine.owed
  have hfinish : l.finish id entry outcome = l.record (.replied id reply outcome) := by
    rw [Loop.finish, hreply]
  rw [hfinish]
  have hlog : (l.record (.replied id reply outcome)).log = l.log ++ [.replied id reply outcome] :=
    rfl
  have hnumbered : Numbered P (l.record (.replied id reply outcome)) := by
    refine h.numbered.frame _ hlog ?_ ?_ (by simp [Asked]) le_rfl le_rfl h.numbered.fetches
      (fun r id' hr => (h.numbered.pending r id' hr).imp_right Asked.mono)
      fun q id' hq => (h.numbered.queries q id' hq).imp_right Queried.mono
    · rw [hlog, eachAfter_concat]
      exact ⟨h.numbered.honest, h.mine.unanswered, ⟨entry.request, entry.deadline, haccepted, hbody⟩,
        hcause⟩
    · intro e he id' hid'
      rw [List.mem_singleton.mp he] at hid'
      obtain rfl : id = id' := Option.some.inj hid'
      exact h.lt
  refine (h.toBeside.frame _ hlog ?_ hnumbered (fun _ _ => rfl) (fun _ _ _ hr => hr)
    (fun _ _ _ hq => hq) fun _ _ => rfl).sound hnone ?_
  · intro e he id' hid'
    rw [List.mem_singleton.mp he] at hid'
    exact (Option.some.inj hid').symm
  · exact fun _ _ _ _ => Or.inr ⟨reply, outcome, List.mem_append_right _ List.mem_cons_self⟩

/-! ### Asking -/

/-- A query is started only for a fetch that waits for none. -/
theorem Loop.startProviderQuery_eq_some (hstart :
    l.startProviderQuery config id entry = some (l', entry')) :
    config.discovery = true ∧ entry.query = none ∧
      l' = { l with
        providerQueries := l.providerQueries.insert l.nextQuery id
        nextQuery := l.nextQuery + 1
        log := l.log ++ [.queried id l.nextQuery] } ∧
      entry' = { entry with query := some l.nextQuery } := by
  rw [Loop.startProviderQuery] at hstart
  split at hstart
  · exact absurd hstart (by simp)
  · rename_i hquery
    rw [not_or, Bool.not_eq_false, Bool.not_eq_true, Option.isSome_eq_false_iff,
      Option.isNone_iff_eq_none] at hquery
    obtain ⟨hl, hentry⟩ := Prod.mk.inj (Option.some.inj hstart)
    exact ⟨hquery.1, hquery.2, hl.symm, hentry.symm⟩

theorem Loop.startProviderQuery_eq_none (hstart : l.startProviderQuery config id entry = none) :
    config.discovery = false ∨ ∃ q, entry.query = some q := by
  rw [Loop.startProviderQuery] at hstart
  split at hstart
  · rename_i hquery
    exact hquery.imp_right Option.isSome_iff_exists.mp
  · exact absurd hstart (by simp)

/-- **The directory is asked.** -/
theorem Holds.startProviderQuery (h : Holds P l id entry)
    (hstart : l.startProviderQuery config id entry = some (l', entry')) : Holds P l' id entry' := by
  obtain ⟨-, hquery, hl', rfl⟩ := Loop.startProviderQuery_eq_some hstart
  have hlog : l'.log = l.log ++ [.queried id l.nextQuery] := by rw [hl']
  have hes : ∀ e ∈ ([.queried id l.nextQuery] : List (Entry Peer)), ∀ id',
      e.fetch? = some id' → id' = id := by
    intro e he id' hid'
    rw [List.mem_singleton.mp he] at hid'
    exact (Option.some.inj hid').symm
  have hqueries : l'.providerQueries = l.providerQueries.insert l.nextQuery id := by rw [hl']
  have hlookup : ∀ q id', l'.providerQueries.lookup q = some id' →
      q = l.nextQuery ∧ id' = id ∨ l.providerQueries.lookup q = some id' := by
    intro q id' hq
    rw [hqueries] at hq
    by_cases hnext : q = l.nextQuery
    · rw [hnext, AList.lookup_insert] at hq
      exact Or.inl ⟨hnext, (Option.some.inj hq).symm⟩
    · rw [AList.lookup_insert_ne hnext] at hq
      exact Or.inr hq
  have hnumbered : Numbered P l' := by
    refine h.numbered.frame _ hlog ?_ ?_ (by simp [Asked]) (by rw [hl']) (by rw [hl'])
      (by rw [hl']; exact h.numbered.fetches) ?_ ?_
    · rw [hlog, eachAfter_concat]
      exact ⟨h.numbered.honest, trivial⟩
    · intro e he id' hid'
      rw [hes e he id' hid', hl']
      exact h.lt
    · rw [hl']
      exact fun r id' hr => (h.numbered.pending r id' hr).imp_right Asked.mono
    · intro q id' hq
      rcases hlookup q id' hq with ⟨rfl, rfl⟩ | hq
      · rw [hl']
        exact ⟨Nat.lt_succ_self _, List.mem_append_right _ List.mem_cons_self⟩
      · rw [hl']
        obtain ⟨hlt, hqueried⟩ := h.numbered.queries q id' hq
        exact ⟨hlt.trans (Nat.lt_succ_self _), hqueried.mono⟩
  refine ⟨h.toBeside.frame _ hlog hes hnumbered (fun _ _ => by rw [hl'])
    (fun _ _ _ hr => by rw [hl']; exact hr)
    (fun q id' hne hq => (hlookup q id' hq).resolve_left fun heq => hne heq.2)
    fun _ _ => by rw [hl'], ?_⟩
  constructor
  · rw [hl']
    exact h.mine.outstanding
  · rw [hlog, hl']
    intro r hasked
    rcases asked_concat.mp hasked with hasked | ⟨peer, heq⟩
    · exact (h.mine.asked r hasked).imp_left Answered.mono
    · exact absurd heq (by simp)
  · rw [hlog]
    intro q hqueried
    rcases queried_concat.mp hqueried with hqueried | heq
    · rcases h.mine.queried q hqueried with hover | hq
      · exact Or.inl hover.mono
      · exact absurd (hquery.symm.trans hq) (by simp)
    · exact Or.inr (congrArg some (Entry.queried.inj heq).2)
  · intro q hq
    rcases hlookup q id hq with ⟨rfl, -⟩ | hq
    · rfl
    · exact absurd (hquery.symm.trans (h.mine.query q hq)) (by simp)
  · intro q hq
    obtain rfl : l.nextQuery = q := Option.some.inj hq
    rw [hlog]
    exact List.mem_append_right _ List.mem_cons_self
  · rw [hlog, replied_concat]
    simpa using h.mine.unanswered
  · rw [hlog]
    exact h.mine.owed.imp fun reply howed => ⟨howed.1, List.mem_append_left _ howed.2⟩

variable [DecidableEq Peer]

/-- **A peer is asked.** -/
theorem Holds.ask (h : Holds P l id entry) (peer : Peer) :
    Holds P (l.ask id entry peer).1 id (l.ask id entry peer).2 := by
  have hlog : (l.ask id entry peer).1.log = l.log ++ [.asked id l.nextRequest peer] := rfl
  have hes : ∀ e ∈ [Entry.asked id l.nextRequest peer], ∀ id', e.fetch? = some id' → id' = id := by
    intro e he id' hid'
    rw [List.mem_singleton.mp he] at hid'
    exact (Option.some.inj hid').symm
  have hcount : ∀ id', count (fun _ x => x == id') (l.ask id entry peer).1.pending =
      count (fun _ x => x == id') l.pending + if id = id' then 1 else 0 := by
    intro id'
    have hinsert := count_insert (fun _ x => x == id') l.pending l.nextRequest id
    rw [h.numbered.pending_next, weight_none, weight_some] at hinsert
    simp only [Nat.add_zero, beq_iff_eq] at hinsert
    exact hinsert
  have hpending : ∀ r id', l.pending.lookup r = some id' →
      (l.ask id entry peer).1.pending.lookup r = some id' := by
    intro r id' hr
    have hne : r ≠ l.nextRequest := (h.numbered.pending r id' hr).1.ne
    exact (AList.lookup_insert_ne hne).trans hr
  have hnumbered : Numbered P (l.ask id entry peer).1 := by
    refine h.numbered.frame _ hlog ?_ ?_ ?_ le_rfl (Nat.le_succ _) h.numbered.fetches ?_ ?_
    · rw [hlog, eachAfter_concat]
      exact ⟨h.numbered.honest, fun id' hasked =>
        absurd (h.numbered.asked id' _ hasked).2 (lt_irrefl _)⟩
    · intro e he id' hid'
      rw [hes e he id' hid']
      exact h.lt
    · rintro id' r ⟨peer', hm⟩
      obtain ⟨-, rfl, -⟩ := Entry.asked.inj (List.mem_singleton.mp hm)
      exact Nat.lt_succ_self _
    · intro r id' hr
      by_cases hnext : r = l.nextRequest
      · subst hnext
        obtain rfl : id = id' := Option.some.inj ((AList.lookup_insert _).symm.trans hr)
        exact ⟨Nat.lt_succ_self _, peer, List.mem_append_right _ List.mem_cons_self⟩
      · rw [show (l.ask id entry peer).1.pending.lookup r = l.pending.lookup r from
          AList.lookup_insert_ne hnext] at hr
        obtain ⟨hlt, hasked⟩ := h.numbered.pending r id' hr
        exact ⟨hlt.trans (Nat.lt_succ_self _), hasked.mono⟩
    · exact fun q id' hq => (h.numbered.queries q id' hq).imp_right Queried.mono
  refine ⟨h.toBeside.frame _ hlog hes hnumbered ?_ (fun r id' _ => hpending r id')
    (fun _ _ _ hq => hq) fun _ _ => rfl, ?_⟩
  · intro id' hne
    rw [hcount, if_neg hne.symm, Nat.add_zero]
  · constructor
    · rw [hcount, if_pos rfl]
      exact congrArg (· + 1) h.mine.outstanding
    · rw [hlog]
      intro r hasked
      rcases asked_concat.mp hasked with hasked | ⟨peer', heq⟩
      · exact (h.mine.asked r hasked).imp Answered.mono (hpending r id)
      · obtain ⟨-, rfl, -⟩ := Entry.asked.inj heq
        exact Or.inr (AList.lookup_insert _)
    · rw [hlog]
      rintro q hqueried
      rcases queried_concat.mp hqueried with hqueried | heq
      · exact (h.mine.queried q hqueried).imp_left QueryOver.mono
      · exact absurd heq (by simp)
    · exact h.mine.query
    · exact fun q hq => (h.mine.started q hq).mono
    · rw [hlog, replied_concat]
      simpa using h.mine.unanswered
    · exact h.mine.owed.imp fun reply howed => ⟨howed.1, List.mem_append_left _ howed.2⟩

/-- **Peers are asked**, one after the other. -/
theorem Holds.askEach {skip : Pending Peer → Peer → Bool} {peers : List Peer}
    {r : Loop Peer × Pending Peer} (h : Holds P r.1 id r.2) :
    Holds P (Loop.askEach skip id peers r).1 id (Loop.askEach skip id peers r).2 := by
  induction peers generalizing r with
  | nil => exact h
  | cons peer peers ih =>
    rw [Loop.askEach]
    split
    · exact ih h
    · exact ih (h.ask peer)

/-! ### Being answered -/

omit [DecidableEq Peer]

/-- A request that is answered is not waited for any more. -/
theorem Beside.answered (h : Beside P l id) (hr : l.pending.lookup r = some id) :
    Beside P { l with pending := l.pending.erase r } id := by
  have hlog : ({ l with pending := l.pending.erase r } : Loop Peer).log = l.log ++ [] :=
    (List.append_nil _).symm
  have hlookup : ∀ r' id', id' ≠ id → l.pending.lookup r' = some id' →
      (l.pending.erase r).lookup r' = some id' := by
    intro r' id' hne hr'
    have hr'r : r' ≠ r := by
      rintro rfl
      exact hne (Option.some.inj (hr'.symm.trans hr))
    exact (AList.lookup_erase_ne hr'r).trans hr'
  refine h.frame [] hlog (by simp) ?_ ?_ hlookup (fun _ _ _ hq => hq) fun _ _ => rfl
  · refine h.numbered.frame [] hlog h.numbered.honest (by simp) (by simp [Asked]) le_rfl le_rfl h.numbered.fetches ?_
      h.numbered.queries
    intro r' id' hr'
    by_cases heq : r' = r
    · rw [heq, AList.lookup_erase] at hr'
      exact absurd hr' (by simp)
    · rw [AList.lookup_erase_ne heq] at hr'
      exact h.numbered.pending r' id' hr'
  · intro id' hne
    have herase := count_erase (fun _ x => x == id') l.pending r
    rw [hr, weight_some, if_neg (by simpa using hne.symm), Nat.add_zero] at herase
    exact herase

/-- **An answer to a fetch** is one less to wait for. -/
theorem Holds.answered (h : Holds P l id entry) (hr : l.pending.lookup r = some id)
    (hanswered : Answered l.log r) :
    Holds P { l with pending := l.pending.erase r } id
      { entry with outstanding := entry.outstanding - 1 } := by
  refine ⟨h.toBeside.answered hr, ?_, ?_, h.mine.queried, h.mine.query, h.mine.started,
    h.mine.unanswered, h.mine.owed⟩
  · have herase := count_erase (fun _ x => x == id) l.pending r
    rw [hr, weight_some, if_pos (by simp), ← h.mine.outstanding] at herase
    exact Nat.sub_eq_of_eq_add herase.symm
  · intro r' hasked
    rcases h.mine.asked r' hasked with hanswered' | hr'
    · exact Or.inl hanswered'
    · by_cases heq : r' = r
      · rw [heq]
        exact Or.inl hanswered
      · exact Or.inr ((AList.lookup_erase_ne heq).trans hr')

/-- A query that is over is not waited for any more. -/
theorem Beside.queryOver (h : Beside P l id) (q : ℕ) :
    Beside P { l with providerQueries := l.providerQueries.erase q } id := by
  have hlog : ({ l with providerQueries := l.providerQueries.erase q } : Loop Peer).log =
      l.log ++ [] := (List.append_nil _).symm
  have hlookup : ∀ q' id', (l.providerQueries.erase q).lookup q' = some id' →
      l.providerQueries.lookup q' = some id' := by
    intro q' id' hq'
    by_cases heq : q' = q
    · rw [heq, AList.lookup_erase] at hq'
      exact absurd hq' (by simp)
    · rwa [AList.lookup_erase_ne heq] at hq'
  refine h.frame [] hlog (by simp) ?_ (fun _ _ => rfl) (fun _ _ _ hr => hr)
    (fun q' id' _ => hlookup q' id') fun _ _ => rfl
  exact h.numbered.frame [] hlog h.numbered.honest (by simp) (by simp [Asked]) le_rfl le_rfl h.numbered.fetches
    h.numbered.pending fun q' id' hq' => h.numbered.queries q' id' (hlookup q' id' hq')

/-- **The end of the query of a fetch.** -/
theorem Holds.queryOver (h : Holds P l id entry) (hq : l.providerQueries.lookup q = some id)
    (hover : QueryOver l.log q) :
    Holds P { l with providerQueries := l.providerQueries.erase q } id
      { entry with query := none } := by
  have hquery : entry.query = some q := h.mine.query q hq
  refine ⟨h.toBeside.queryOver q, h.mine.outstanding, h.mine.asked, ?_, ?_,
    fun _ hq' => absurd hq' (by simp), h.mine.unanswered, h.mine.owed⟩
  · intro q' hqueried
    rcases h.mine.queried q' hqueried with hover' | hq'
    · exact Or.inl hover'
    · obtain rfl : q = q' := Option.some.inj (hquery.symm.trans hq')
      exact Or.inl hover
  · intro q' hq'
    exfalso
    by_cases heq : q' = q
    · rw [show ({ l with providerQueries := l.providerQueries.erase q } :
        Loop Peer).providerQueries.lookup q' = none by rw [heq]; exact AList.lookup_erase _ _] at hq'
      exact absurd hq' (by simp)
    · have hq' : l.providerQueries.lookup q' = some id := (AList.lookup_erase_ne heq).symm.trans hq'
      exact heq (Option.some.inj ((h.mine.query q' hq').symm.trans hquery))

/-- **What is about no fetch** leaves the loop as it is. -/
theorem Sound.quiet (h : Sound P l) (es : List (Entry Peer)) (hlog : l'.log = l.log ++ es)
    (hes : ∀ e ∈ es, e.fetch? = none) (hfetches : l'.fetches = l.fetches)
    (hpending : l'.pending = l.pending) (hqueries : l'.providerQueries = l.providerQueries)
    (hfetch : l'.nextFetch = l.nextFetch) (hrequest : l'.nextRequest = l.nextRequest)
    (hquery : l'.nextQuery = l.nextQuery) : Sound P l' := by
  have hother : ∀ id, ∀ e ∈ es, e.fetch? ≠ some id := fun id e he => by simp [hes e he]
  refine ⟨?_, ?_, ?_⟩
  · refine h.numbered.frame es hlog ?_ (fun e he id hid => absurd hid (hother id e he))
      (fun id r ⟨_, hm⟩ => absurd rfl (hother id _ hm)) hfetch.ge hrequest.ge ?_ ?_ ?_
    · rw [hlog]
      exact eachAfter_append h.numbered.honest fun e he _ => honest_of_fetch?_eq_none (hes e he)
    · rw [hfetches, hfetch]
      exact h.numbered.fetches
    · rw [hpending, hrequest, hlog]
      exact fun r id hr => (h.numbered.pending r id hr).imp_right Asked.mono
    · rw [hqueries, hquery, hlog]
      exact fun q id hq => (h.numbered.queries q id hq).imp_right Queried.mono
  · rw [hfetches]
    exact fun id entry hentry => (h.tracked id entry hentry).frame es hlog (hother id)
      (by rw [hpending]) (fun r hr => by rwa [hpending]) fun q hq => by rwa [← hqueries]
  · exact fun id => (h.settled id).frame es hlog (hother id) (by rw [hfetches])

end Swarm

end Syndeo
