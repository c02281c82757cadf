import Syndeo.Peer.Answers

/-!
# What a peer may take

Each peer has a ledger of what it has been given and what it has given. It counts
bodies: a body handed over is a debt of one whatever its length, a body taken pays
one back, and whoever owes as many as `Syndeo.Swarm.openingCredit` is put off.

So it is the bodies that are bounded, over whole runs and whatever happens in
between: what a peer has been given is never more than the opening credit and what
it has given together (`Syndeo.Swarm.exchange_is_fair`). In bytes the bound is the
same with the longest body for each, and nothing better: the bytes of two answers
can be more than any of these sums.
-/

namespace Syndeo

open Tables

namespace Swarm

variable {Peer : Type} [DecidableEq Peer]

/-- The bodies that were handed over to a peer. -/
def given (log : List (Entry Peer)) (peer : Peer) : List Bytes :=
  log.filterMap fun
    | .answered peer' (.«have» body) => if peer' = peer then some body else none
    | _ => none

/-- The bodies that came from a peer. -/
def cameFrom (es : List (Event Peer)) (peer : Peer) : List Bytes :=
  es.filterMap fun
    | .response peer' _ (.«have» body) => if peer' = peer then some body else none
    | _ => none

/-- The bytes of some bodies. -/
def size (bodies : List Bytes) : ℕ := (bodies.map List.length).sum

/-- **The books of a peer are in order**: they say what was handed over, they say no
more of what was taken than has come, and nobody owes more than the opening credit. -/
structure Balanced (l : Loop Peer) (es : List (Event Peer)) (peer : Peer) : Prop where
  served : (l.ledger peer).served = (given l.log peer).length
  bytesServed : (l.ledger peer).bytesServed = size (given l.log peer)
  fits : ∀ body ∈ given l.log peer, body.length ≤ maxBody
  received_le : (l.ledger peer).received ≤ (cameFrom es peer).length
  bytesReceived_le : (l.ledger peer).bytesReceived ≤ maxBody * (l.ledger peer).received
  debt_le : (l.ledger peer).debt ≤ openingCredit
  served_le : (l.ledger peer).served ≤ (l.ledger peer).received + (l.ledger peer).debt

/-! ### What leaves the books alone -/

/-- **The same books.** -/
def SameBooks (l l' : Loop Peer) : Prop :=
  l'.ledgers = l.ledgers ∧ ∀ peer, given l'.log peer = given l.log peer

section SameBooks

variable {P : Platform} {config : PeerConfig} {localPeer : Peer} {l l' l'' : Loop Peer} {id : ℕ}
  {entry entry' : Pending Peer}

theorem SameBooks.refl (l : Loop Peer) : SameBooks l l := ⟨rfl, fun _ => rfl⟩

theorem SameBooks.trans (h : SameBooks l l') (h' : SameBooks l' l'') : SameBooks l l'' :=
  ⟨h'.1.trans h.1, fun peer => (h'.2 peer).trans (h.2 peer)⟩

/-- Something is done that is no answer to a peer. -/
theorem sameBooks_of_log {e : Entry Peer} (hledgers : l'.ledgers = l.ledgers)
    (hlog : l'.log = l.log ++ [e]) (he : ∀ peer response, e ≠ .answered peer response) :
    SameBooks l l' := by
  refine ⟨hledgers, fun peer => ?_⟩
  rw [hlog, given, List.filterMap_append]
  cases e with
  | answered peer' response => exact absurd rfl (he peer' response)
  | _ => exact List.append_nil _

theorem sameBooks_finish (l : Loop Peer) (id : ℕ) (entry : Pending Peer) (outcome : Outcome) :
    SameBooks l (l.finish id entry outcome) := by
  rw [Loop.finish]
  split
  · exact sameBooks_of_log rfl rfl (by simp)
  · exact SameBooks.refl l

theorem sameBooks_startProviderQuery
    (h : l.startProviderQuery config id entry = some (l', entry')) : SameBooks l l' := by
  rw [Loop.startProviderQuery] at h
  split at h
  · cases h
  · obtain ⟨rfl, -⟩ := Prod.mk.inj (Option.some.inj h)
    exact sameBooks_of_log rfl rfl (by simp)

theorem sameBooks_askEach {skip : Pending Peer → Peer → Bool} {peers : List Peer} :
    SameBooks l (Loop.askEach skip id peers (l, entry)).1 := by
  induction peers generalizing l entry with
  | nil => exact SameBooks.refl l
  | cons peer peers ih =>
    rw [Loop.askEach]
    split
    · exact ih
    · have hask : SameBooks l (l.ask id entry peer).1 := sameBooks_of_log rfl rfl (by simp)
      exact hask.trans ih

theorem sameBooks_exhausted : SameBooks l (l.exhausted config id) := by
  rw [Loop.exhausted]
  split
  · exact SameBooks.refl l
  · rename_i entry hentry
    split
    · exact SameBooks.refl l
    · have hdrop : SameBooks l (l.drop id) := SameBooks.refl l
      split
      · rename_i self started hstart
        exact (hdrop.trans (sameBooks_startProviderQuery hstart)).trans (SameBooks.refl _)
      · exact hdrop.trans (sameBooks_finish _ _ _ _)

theorem sameBooks_handleFetch {request : BlobRequest} {reply now : ℕ} :
    SameBooks l (l.handleFetch config request reply now) := by
  rw [Loop.handleFetch]
  dsimp only
  have haccepted : SameBooks l (Loop.record { l with nextFetch := l.nextFetch + 1 }
      (.accepted l.nextFetch request reply (now + config.fetchTimeout))) :=
    sameBooks_of_log rfl rfl (by simp)
  generalize hr : (Loop.askEach _ _ _ _ : Loop Peer × Pending Peer) = r
  have hask : SameBooks (Loop.record { l with nextFetch := l.nextFetch + 1 }
      (.accepted l.nextFetch request reply (now + config.fetchTimeout))) r.1 :=
    hr ▸ sameBooks_askEach
  refine haccepted.trans (hask.trans ?_)
  split
  · split
    · rename_i self started hstart
      exact (sameBooks_startProviderQuery hstart).trans (SameBooks.refl _)
    · exact sameBooks_finish _ _ _ _
  · exact SameBooks.refl _

theorem sameBooks_handleCommand {now : ℕ} {c : Command} :
    SameBooks l (l.handleCommand config now c) := by
  cases c with
  | fetch request reply => exact sameBooks_handleFetch
  | announce key starts =>
    rw [Loop.handleCommand]
    split_ifs
    · exact SameBooks.refl l
    · exact SameBooks.refl l
    · exact sameBooks_of_log rfl rfl (by simp)
    · exact sameBooks_of_log rfl rfl (by simp)
  | look => exact SameBooks.refl l

theorem sameBooks_expire {now : ℕ} : SameBooks l (l.expire now) := by
  rw [Loop.expire]
  generalize (rows l.fetches).filter (fun r => r.2.deadline ≤ now) = late
  induction late generalizing l with
  | nil => exact SameBooks.refl l
  | cons r late ih =>
    have hdrop : SameBooks l (l.drop r.1) := SameBooks.refl l
    exact (hdrop.trans (sameBooks_finish _ _ _ _)).trans ih

theorem sameBooks_handleProviders {query : ℕ} {providers : List Peer} :
    SameBooks l (l.handleProviders localPeer query providers) := by
  rw [Loop.handleProviders]
  split
  · exact SameBooks.refl l
  · split
    · exact SameBooks.refl l
    · rename_i id _ entry _
      exact SameBooks.trans sameBooks_askEach (SameBooks.refl _)

theorem sameBooks_handleQueryOver {query : ℕ} : SameBooks l (l.handleQueryOver query) := by
  rw [Loop.handleQueryOver]
  split
  · exact SameBooks.refl l
  · dsimp only
    split
    · exact SameBooks.refl l
    · split
      · exact SameBooks.trans (SameBooks.refl l) (sameBooks_finish _ _ _ _)
      · exact SameBooks.refl l

theorem sameBooks_handleFailure {requestId : ℕ} :
    SameBooks l (l.handleFailure config requestId) := by
  rw [Loop.handleFailure]
  split
  · exact SameBooks.refl l
  · dsimp only
    split
    · exact SameBooks.refl l
    · exact SameBooks.trans (SameBooks.refl l) sameBooks_exhausted

/-- **An answer a peer gave** changes the books only where it brings what was asked
for, and then that peer's. -/
theorem handleResponse_books (P : Platform) (config : PeerConfig) (l : Loop Peer) (peer : Peer) (requestId : ℕ)
    (response : BlobResponse) : SameBooks l (l.handleResponse P config peer requestId response) ∨
      ∃ body, response = .«have» body ∧ body.length ≤ maxBody ∧
        (l.handleResponse P config peer requestId response).ledgers =
          l.ledgers.insert peer ((l.ledger peer).took body.length) ∧
        ∀ peer', given (l.handleResponse P config peer requestId response).log peer' =
          given l.log peer' := by
  rw [Loop.handleResponse]
  split
  · exact Or.inl (SameBooks.refl l)
  · rename_i id hid
    dsimp only
    split
    · exact Or.inl (SameBooks.refl l)
    · rename_i entry hentry
      split
      · rename_i body hbrings
        cases response with
        | «have» body' =>
          rw [Loop.brings] at hbrings
          split at hbrings
          · rename_i hfits
            obtain rfl := Option.some.inj hbrings
            have hfinish := sameBooks_finish (Loop.drop { l with
                pending := l.pending.erase requestId
                ledgers := l.ledgers.insert peer ((l.ledger peer).took body'.length) } id)
              id { entry with outstanding := entry.outstanding - 1 } (.ok body')
            exact Or.inr ⟨body', rfl, hfits.1, hfinish.1, hfinish.2⟩
          · cases hbrings
        | _ => cases hbrings
      · exact Or.inl (SameBooks.trans (SameBooks.refl l) sameBooks_exhausted)

end SameBooks

/-! ### One turn -/

section Turn

variable {P : Platform} {config : PeerConfig} {localPeer peer : Peer} {l l' : Loop Peer}
  {es : List (Event Peer)} {e : Event Peer} {found : Option Bytes}

theorem given_concat {log : List (Entry Peer)} {peer' : Peer} {response : BlobResponse} :
    given (log ++ [.answered peer' response]) peer = given log peer ++
      match response with
      | .«have» body => if peer' = peer then [body] else []
      | _ => [] := by
  rw [given, List.filterMap_append]
  cases response with
  | «have» body =>
    by_cases hpeer : peer' = peer
    · simp [given, hpeer]
    · simp [given, hpeer]
  | _ => rfl

theorem cameFrom_concat : cameFrom (es ++ [e]) peer = cameFrom es peer ++ cameFrom [e] peer :=
  List.filterMap_append

theorem Balanced.ledger_eq (h : Balanced l es peer)
    (hbooks : l'.ledger peer = l.ledger peer) (hgiven : given l'.log peer = given l.log peer) :
    Balanced l' (es ++ [e]) peer := by
  have hcame : (cameFrom es peer).length ≤ (cameFrom (es ++ [e]) peer).length := by
    rw [cameFrom_concat, List.length_append]
    exact Nat.le_add_right _ _
  constructor
  · rw [hbooks, hgiven, h.served]
  · rw [hbooks, hgiven, h.bytesServed]
  · rw [hgiven]
    exact h.fits
  · rw [hbooks]
    exact h.received_le.trans hcame
  · rw [hbooks]
    exact h.bytesReceived_le
  · rw [hbooks]
    exact h.debt_le
  · rw [hbooks]
    exact h.served_le

theorem Balanced.sameBooks (h : Balanced l es peer) (hsame : SameBooks l l') :
    Balanced l' (es ++ [e]) peer :=
  h.ledger_eq (by rw [Loop.ledger, Loop.ledger, hsame.1]) (hsame.2 peer)

/-- What is served to a peer that asks: a body only where it is in credit, and one that
is not too long. -/
theorem handleRequest_eq (config : PeerConfig) (l : Loop Peer) (asks : Peer)
    (found : Option Bytes) :
    (∃ body, (l.ledger asks).debt < openingCredit ∧ body.length ≤ maxBody ∧
      l.handleRequest config asks found = Loop.record
        { l with ledgers := l.ledgers.insert asks ((l.ledger asks).gave body.length) }
        (.answered asks (.«have» body))) ∨
    ∃ response, (∀ body, response ≠ .«have» body) ∧
      l.handleRequest config asks found = Loop.record
        { l with ledgers := l.ledgers.insert asks (l.ledger asks) } (.answered asks response) := by
  simp only [Loop.handleRequest]
  split_ifs with hserve hcredit
  · exact Or.inr ⟨.missing, by simp, rfl⟩
  · exact Or.inr ⟨.throttled, by simp, rfl⟩
  · rcases found with _ | body
    · exact Or.inr ⟨.missing, by simp, rfl⟩
    · by_cases hfits : body.length ≤ maxBody
      · have hin : (l.ledger asks).debt < openingCredit := by
          simpa [Ledger.inCredit] using hcredit
        refine Or.inl ⟨body, hin, hfits, ?_⟩
        simp only [if_pos hfits]
      · refine Or.inr ⟨.missing, by simp, ?_⟩
        simp only [if_neg hfits]

theorem ledger_insert (l : Loop Peer) (peer : Peer) {books : Ledger} {other : Peer}
    (hledgers : l'.ledgers = l.ledgers.insert other books) :
    l'.ledger peer = if other = peer then books else l.ledger peer := by
  rw [Loop.ledger, hledgers]
  split
  · rename_i hpeer
    rw [hpeer, AList.lookup_insert]
    rfl
  · rename_i hpeer
    rw [AList.lookup_insert_ne (Ne.symm hpeer)]
    rfl

/-- **A peer asks**: it is in credit before it is given anything. -/
theorem Balanced.request (h : Balanced l es peer) (asks : Peer) (found : Option Bytes) :
    Balanced (l.handleRequest config asks found) (es ++ [e]) peer := by
  rcases handleRequest_eq config l asks found with
    ⟨body, hcredit, hfits, heq⟩ | ⟨response, hnothing, heq⟩
  · rw [heq]
    have hgiven : given (Loop.record
        { l with ledgers := l.ledgers.insert asks ((l.ledger asks).gave body.length) }
        (.answered asks (.«have» body))).log peer =
        given l.log peer ++ if asks = peer then [body] else [] := given_concat
    have hledger : (Loop.record
        { l with ledgers := l.ledgers.insert asks ((l.ledger asks).gave body.length) }
        (.answered asks (.«have» body))).ledger peer =
        if asks = peer then (l.ledger asks).gave body.length else l.ledger peer :=
      ledger_insert l peer rfl
    by_cases hpeer : asks = peer
    · subst hpeer
      rw [if_pos rfl] at hgiven hledger
      have hcame : (cameFrom es asks).length ≤ (cameFrom (es ++ [e]) asks).length := by
        rw [cameFrom_concat, List.length_append]
        exact Nat.le_add_right _ _
      constructor
      · rw [hledger, hgiven, List.length_append, ← h.served]
        rfl
      · rw [hledger, hgiven, size, List.map_append, List.sum_append, ← size, ← h.bytesServed]
        rfl
      · rw [hgiven]
        intro b hb
        rcases List.mem_append.mp hb with hb | hb
        · exact h.fits b hb
        · obtain rfl := List.mem_singleton.mp hb
          exact hfits
      · rw [hledger]
        exact h.received_le.trans hcame
      · rw [hledger]
        exact h.bytesReceived_le
      · rw [hledger, Ledger.gave]
        exact (min_le_left _ _).trans hcredit
      · have hserved := h.served_le
        have hdebt : openingCredit < 2 ^ 32 - 1 := by decide
        rw [hledger, Ledger.gave]
        dsimp only
        omega
    · rw [if_neg hpeer] at hgiven hledger
      rw [List.append_nil] at hgiven
      exact h.ledger_eq hledger hgiven
  · rw [heq]
    refine h.ledger_eq ?_ ?_
    · rw [ledger_insert _ _ rfl]
      split
      · rename_i hpeer
        rw [hpeer]
      · rfl
    · refine given_concat.trans ?_
      cases response with
      | «have» body => exact absurd rfl (hnothing body)
      | _ => exact List.append_nil _

/-- **A peer answers**: what it is credited with has come. -/
theorem Balanced.response (h : Balanced l es peer) (answers : Peer) (requestId : ℕ)
    (response : BlobResponse) : Balanced (l.handleResponse P config answers requestId response)
      (es ++ [.response answers requestId response]) peer := by
  rcases handleResponse_books P config l answers requestId response with
    hsame | ⟨body, rfl, hfits, hledgers, hgiven⟩
  · exact h.sameBooks hsame
  · have hledger := ledger_insert _ peer hledgers
    by_cases hpeer : answers = peer
    · subst hpeer
      rw [if_pos rfl] at hledger
      constructor
      · rw [hledger, hgiven]
        exact h.served
      · rw [hledger, hgiven]
        exact h.bytesServed
      · rw [hgiven]
        exact h.fits
      · have hone : (cameFrom [Event.response answers requestId (.«have» body)] answers).length =
            1 := by simp [cameFrom]
        rw [hledger, cameFrom_concat, List.length_append, hone]
        exact Nat.succ_le_succ h.received_le
      · have hbytes := h.bytesReceived_le
        rw [hledger, Ledger.took]
        dsimp only
        rw [Nat.mul_succ]
        exact Nat.add_le_add hbytes hfits
      · rw [hledger]
        exact (Nat.sub_le _ _).trans h.debt_le
      · have hserved := h.served_le
        rw [hledger, Ledger.took]
        dsimp only
        omega
    · rw [if_neg hpeer] at hledger
      exact h.ledger_eq hledger (hgiven peer)

/-- **One turn.** -/
theorem Balanced.after (h : Balanced l es peer) (e : Event Peer) :
    Balanced (l.after P config localPeer e) (es ++ [e]) peer := by
  have hrecord : SameBooks l (l.record (.happened e)) := sameBooks_of_log rfl rfl nofun
  have hbefore : Balanced (l.record (.happened e)) es peer := by
    have hledger : (l.record (.happened e)).ledger peer = l.ledger peer := rfl
    have hgiven := hrecord.2 peer
    constructor
    · rw [hledger, hgiven, h.served]
    · rw [hledger, hgiven, h.bytesServed]
    · rw [hgiven]
      exact h.fits
    · exact h.received_le
    · exact h.bytesReceived_le
    · exact h.debt_le
    · exact h.served_le
  rw [Loop.after]
  cases e with
  | command c now => exact hbefore.sameBooks sameBooks_handleCommand
  | sweep now => exact hbefore.sameBooks sameBooks_expire
  | connectionEstablished other =>
    refine hbefore.sameBooks ?_
    rw [Loop.handle]
    split
    · exact SameBooks.refl _
    · exact SameBooks.refl _
  | connectionClosed other numEstablished =>
    refine hbefore.sameBooks ?_
    rw [Loop.handle]
    split
    · exact SameBooks.refl _
    · exact SameBooks.refl _
  | foundProviders query providers => exact hbefore.sameBooks sameBooks_handleProviders
  | queryOver query => exact hbefore.sameBooks sameBooks_handleQueryOver
  | request asks request found => exact hbefore.request asks found
  | response answers requestId response => exact hbefore.response answers requestId response
  | outboundFailure requestId => exact hbefore.sameBooks sameBooks_handleFailure
  | other => exact hbefore.sameBooks (SameBooks.refl _)

theorem balanced_start : Balanced (Loop.start : Loop Peer) [] peer where
  served := rfl
  bytesServed := rfl
  fits := nofun
  received_le := le_rfl
  bytesReceived_le := le_rfl
  debt_le := Nat.zero_le _
  served_le := le_rfl

/-- **Every run.** -/
theorem balanced_run (es : List (Event Peer)) :
    Balanced (Loop.run P config localPeer es) es peer := by
  induction es using List.reverseRecOn with
  | nil => exact balanced_start
  | append_singleton es e ih =>
    rw [Loop.run_append]
    exact ih.after e

theorem size_le {bodies : List Bytes} {n : ℕ} (h : ∀ body ∈ bodies, body.length ≤ n) :
    size bodies ≤ n * bodies.length := by
  induction bodies with
  | nil => exact le_rfl
  | cons body bodies ih =>
    have hbody := h body List.mem_cons_self
    have hrest := ih fun b hb => h b (List.mem_cons_of_mem _ hb)
    rw [size, List.map_cons, List.sum_cons, ← size, List.length_cons, Nat.mul_succ, Nat.add_comm]
    exact Nat.add_le_add hrest hbody

end Turn

/-! ### What is bounded -/

/-- **A fair exchange** with a peer: what it was given, body by body, is within the
opening credit and what it has given, and so is every byte if each body is as long as
it may be. The ledger says so, and counts no body of the peer's that has not come. What
is owed stays within the credit, and no counter outgrows its 64 bits, in less than
`2 ^ 38` turns. -/
structure Fair (l : Loop Peer) (es : List (Event Peer)) (peer : Peer) : Prop where
  bodies : (given l.log peer).length ≤ openingCredit + (l.ledger peer).received
  bytes : size (given l.log peer) ≤ maxBody * (openingCredit + (l.ledger peer).received)
  served : (l.ledger peer).served = (given l.log peer).length
  bytesServed : (l.ledger peer).bytesServed = size (given l.log peer)
  received : (l.ledger peer).received ≤ (cameFrom es peer).length
  debt : (l.ledger peer).debt ≤ openingCredit
  counters : es.length < 2 ^ 38 → (l.ledger peer).served < 2 ^ 64 ∧
    (l.ledger peer).bytesServed < 2 ^ 64 ∧ (l.ledger peer).received < 2 ^ 64 ∧
      (l.ledger peer).bytesReceived < 2 ^ 64

/-- **Every exchange is fair**, whatever happens in whatever order. -/
theorem exchange_is_fair (P : Platform) (config : PeerConfig) (localPeer : Peer)
    (es : List (Event Peer)) (peer : Peer) : Fair (Loop.run P config localPeer es) es peer := by
  have h : Balanced (Loop.run P config localPeer es) es peer := balanced_run es
  have hserved := h.served
  have hserved_le := h.served_le
  have hdebt := h.debt_le
  have hreceived := h.received_le
  have hbodies : (given (Loop.run P config localPeer es).log peer).length ≤
      openingCredit + ((Loop.run P config localPeer es).ledger peer).received := by omega
  have hbytes := (size_le h.fits).trans (Nat.mul_le_mul_left _ hbodies)
  refine ⟨hbodies, hbytes, hserved, h.bytesServed, hreceived, hdebt, fun hshort => ?_⟩
  have hcame : (cameFrom es peer).length ≤ es.length := List.length_filterMap_le _ _
  have hbytesReceived := h.bytesReceived_le
  have hcredit : openingCredit = 32 := rfl
  have hmaxBody : maxBody = 2 ^ 25 := by decide
  rw [hserved, h.bytesServed]
  rw [hmaxBody] at hbytes hbytesReceived
  omega

/-- A peer that asks for the same forty bytes twice. -/
def askTwice : List (Event Unit) :=
  [.request () (.integrity 1 []) (some (List.replicate 40 0)),
    .request () (.integrity 1 []) (some (List.replicate 40 0))]

def servingConfig : PeerConfig where
  serve := true
  discovery := true
  announce := true
  fetchTimeout := 20

/-- **The bytes are not bounded that way**: what was served before the answer in
progress can be more than the credit. -/
theorem bytes_not_credited : ¬∀ (P : Platform) (config : PeerConfig) (localPeer : Unit)
    (es : List (Event Unit)) (peer : Unit) (longest : ℕ),
    (∀ body ∈ given (Loop.run P config localPeer es).log peer, body.length ≤ longest) →
      ((Loop.run P config localPeer es).ledger peer).bytesServed ≤
        openingCredit + ((Loop.run P config localPeer es).ledger peer).bytesReceived + longest := by
  intro hall
  have hbound := hall .sample servingConfig () askTwice () 40 (by decide)
  exact absurd hbound (by decide)

end Swarm

end Syndeo
