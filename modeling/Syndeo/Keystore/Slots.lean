import Syndeo.Keystore.Enrolment

/-!
# Two places for one key

The wrapping key has one name and two places: a build that can enrol in the enclave
stores it there, every other build in the ordinary keychain. Each build reads the
enclave first, which shows nothing to a build that cannot enrol. Storing and erasing
take away what is in the other place only where the build can reach it, and then
without looking at whether that failed.

So what is in the two places is the key that was stored last, and nothing after an
erasure, for as long as no call leaves something of an older key behind
(`Syndeo.StoreCall.LeavesNothing`): exactly then does every load return that key, and
exactly then is nothing found after an erasure (`Syndeo.truthful_iff`).
-/

namespace Syndeo

open Concurrent

/-- `[u8; 32]`. -/
abbrev WrappingKey := { key : Bytes // key.length = 32 }

/-- A call of the store. -/
inductive StoreRequest
  | store (key : WrappingKey)
  | load
  | erase
  | «exists»

/-- The call, the build that makes it and what its actions are met with. -/
structure StoreCall where
  build : Build
  world : World
  request : StoreRequest

/-- **What was done**: the keystore, the key of the last `store` that returned `Ok`, and
whether an `erase` has returned `Ok` since. -/
structure StoreHistory where
  keystore : Keystore
  last : Option Bytes
  erased : Bool

namespace StoreHistory

/-- Nothing yet. -/
def start (vault : Vault) (session : Session) : StoreHistory :=
  ⟨⟨vault, ⟨none, none⟩, session⟩, none, false⟩

/-- After one more call. -/
def after (s : StoreHistory) (c : StoreCall) : StoreHistory :=
  match c.request with
  | .store key =>
    match s.keystore.run c.build c.world (OsKeyring.store c.build key.1) with
    | (.ok _, k) => ⟨k, some key.1, false⟩
    | (.error _, k) => { s with keystore := k }
  | .load => { s with keystore := (s.keystore.run c.build c.world (OsKeyring.load c.build)).2 }
  | .erase =>
    match s.keystore.run c.build c.world (OsKeyring.erase c.build) with
    | (.ok _, k) => { s with keystore := k, erased := true }
    | (.error _, k) => { s with keystore := k }
  | .exists => { s with keystore := (s.keystore.run c.build c.world (OsKeyring.exists c.build)).2 }

/-- **What the calls say is so**: a load that returns a key, by any build, returns the
last one stored; and after an erasure no build finds one. -/
def Truthful (s : StoreHistory) : Prop :=
  (∀ build world key, (s.keystore.run build world (OsKeyring.load build)).1 = .ok key →
      s.last = some key) ∧
    (s.erased = true → ∀ build world found,
      (s.keystore.run build world (OsKeyring.exists build)).1 = .ok found → found = false)

end StoreHistory

/-- **The call leaves nothing of an older key behind**, in the ring as it is before it: where
a key is stored in the one place, the other holds nothing else, or what it holds is taken
away; and where an erasure gets through, the enclave holds nothing, or its item is taken away
too. -/
def StoreCall.LeavesNothing (c : StoreCall) (ring : Ring) : Prop :=
  match c.request with
  | .store key => ¬c.world.StoreFails c.build ring key.1 →
    if c.build.presenceAvailable then
      ¬c.world.Fails .deleteCredential ∨ ∀ text ∈ ring.keychain, text = hexEncode key.1
    else ∀ other ∈ ring.enclave, other = key.1
  | .erase => ¬c.world.Fails .deleteCredential → c.world.Erases c.build ∨ ring.enclave = none
  | _ => True

/-! ### What the calls do -/

/-- The action asks the credential store, and changes nothing there. -/
def CustodyAct.Asks : ∀ {β : Type}, CustodyAct β → Prop
  | _, .enclaveExists => True
  | _, .enclaveLoad => True
  | _, .getPassword => True
  | _, _ => False

/-- The piece of an operation only asks. -/
def OnlyAsks {ε α : Type} (x : CustodyM ε α) : Prop := x.run.Asks fun {_} a => a.Asks

theorem onlyAsks_enrolledInEnclave (build : Build) : OnlyAsks (OsKeyring.enrolledInEnclave build) := by
  cases build with
  | elsewhere => trivial
  | macos enrols => exact ⟨trivial, fun _ => trivial⟩

theorem onlyAsks_fallbackExists : OnlyAsks OsKeyring.fallbackExists :=
  Prog.asks_run_bind ⟨trivial, fun _ => trivial⟩ fun _ => trivial

theorem onlyAsks_load (build : Build) : OnlyAsks (OsKeyring.load build) := by
  refine Prog.asks_run_bind (onlyAsks_enrolledInEnclave build) fun enrolled => ?_
  split_ifs
  · exact ⟨trivial, fun _ => trivial⟩
  · refine Prog.asks_run_bind ⟨trivial, fun _ => trivial⟩ fun found => ?_
    split <;> trivial

theorem onlyAsks_exists (build : Build) : OnlyAsks (OsKeyring.exists build) := by
  cases build with
  | elsewhere => exact onlyAsks_fallbackExists
  | macos enrols =>
    refine Prog.asks_run_bind ⟨trivial, fun _ => trivial⟩ fun found => ?_
    split_ifs
    · trivial
    · exact onlyAsks_fallbackExists

namespace Keystore

variable {build : Build} {world : World} {k : Keystore} {key : Bytes}

variable (build world k) in
/-- What deleting the entry comes to. -/
theorem run_deleteCredential_eq : ∃ r, k.run build world (tryAct .deleteCredential) =
    (r, { k with ring :=
      ⟨k.ring.enclave, if world.Fails .deleteCredential then k.ring.keychain else none⟩ }) ∧
      ((∃ found, r = .ok found) ↔ ¬world.Fails .deleteCredential) := by
  by_cases hdelete : world.Fails .deleteCredential
  · obtain ⟨e, he⟩ : ∃ e, k.run build world (tryAct .deleteCredential) = (.error e, k) :=
      onRing_of_fails hdelete
    refine ⟨.error e, by rw [if_pos hdelete, he], ?_⟩
    simp [hdelete]
  · refine ⟨.ok k.ring.keychain.isSome, ?_, by simp [hdelete]⟩
    rw [if_neg hdelete]
    exact onRing_of_calm (not_not.mp hdelete)

variable (build world k) in
/-- What deleting the enclave's item comes to, whether a build can or not. -/
theorem run_enclaveDelete_eq : ∃ r, k.run build world (tryAct .enclaveDelete) =
    (r, { k with ring := if world.Erases build then k.ring.erased else k.ring }) := by
  by_cases hbuild : build.presenceAvailable = true
  · obtain ⟨r, hdelete⟩ := run_enclaveDelete world k hbuild
    refine ⟨r, hdelete.trans ?_⟩
    by_cases hd : world.Fails .enclaveDelete
    · rw [if_pos hd, if_neg fun h => h.2 hd]
    · rw [if_neg hd, if_pos ⟨hbuild, hd⟩]
  · rw [if_neg fun h => hbuild h.1]
    by_cases hd : world.Fails .enclaveDelete
    · obtain ⟨e, he⟩ : ∃ e, k.run build world (tryAct .enclaveDelete) = (.error e, k) :=
        onRing_of_fails hd
      exact ⟨.error e, he⟩
    · refine ⟨.ok (), ?_⟩
      simp [perform, onRing_of_calm (not_not.mp hd), hbuild]

variable (build world k key) in
/-- **Storing**, in the enclave or in the keychain. -/
theorem run_store_eq :
    if world.StoreFails build k.ring key then
      ∃ e, k.run build world (OsKeyring.store build key) =
        (.error e, { k with ring := if world.Erases build then k.ring.erased else k.ring })
    else k.run build world (OsKeyring.store build key) = (.ok (), { k with ring :=
      if build.presenceAvailable then
        ⟨some key, if world.Fails .deleteCredential then k.ring.keychain else none⟩
      else ⟨k.ring.enclave, some (hexEncode key)⟩ }) := by
  by_cases hbuild : build.presenceAvailable = true
  · obtain ⟨r, hdelete⟩ := run_enclaveDelete_eq build world k
    have hkeychain : (if world.Erases build then k.ring.erased else k.ring).keychain =
        k.ring.keychain := by
      split_ifs <;> rfl
    have hfails : world.StoreFails build k.ring key ↔ world.Fails (.enclaveAdd key) ∨
        (if world.Erases build then k.ring.erased else k.ring).enclave.isSome := by
      by_cases hd : world.Fails .enclaveDelete <;>
        simp [World.StoreFails, World.Erases, hbuild, hd, Ring.erased]
    rw [OsKeyring.store, if_pos hbuild, OsKeyring.enclaveStore, run_bind, run_bind, run_outcome,
      hdelete]
    dsimp only
    generalize (if world.Erases build then k.ring.erased else k.ring) = ring at hkeychain hfails
    have hadd := run_enclaveAdd world { k with ring := ring } key hbuild
    by_cases hstore : world.StoreFails build k.ring key
    · rw [if_pos (hfails.mp hstore)] at hadd
      obtain ⟨e, he⟩ := hadd
      rw [if_pos hstore, he]
      exact ⟨e, rfl⟩
    · rw [if_neg (mt hfails.mpr hstore)] at hadd
      rw [if_neg hstore, hadd, if_pos hbuild]
      obtain ⟨r', hlast, -⟩ := run_deleteCredential_eq build world
        { k with ring := { ring with enclave := some key } }
      simp only [run_bind, run_outcome, hlast, run_pure, ← hkeychain]
  · have hfails : world.StoreFails build k.ring key ↔ world.Fails (.setPassword (hexEncode key)) := by
      simp [World.StoreFails, hbuild]
    have herases : ¬world.Erases build := fun h => hbuild h.1
    rw [OsKeyring.store, if_neg hbuild, if_neg hbuild, run_tryAct, perform]
    by_cases hset : world.Fails (.setPassword (hexEncode key))
    · rw [if_pos (hfails.mpr hset), if_neg herases]
      exact onRing_of_fails hset
    · rw [if_neg (mt hfails.mp hset)]
      exact onRing_of_calm (not_not.mp hset)

variable (build world k) in
/-- **Erasing**: whether the enclave's item went is not looked at. -/
theorem run_erase_eq : ∃ r, k.run build world (OsKeyring.erase build) =
    (r, { k with ring := ⟨if world.Erases build then none else k.ring.enclave,
      if world.Fails .deleteCredential then k.ring.keychain else none⟩ }) ∧
      ((∃ a, r = .ok a) ↔ ¬world.Fails .deleteCredential) := by
  have hrest : ∀ ring : Ring, ∃ r, { k with ring := ring }.run build world (do
      let _ ← tryAct .deleteCredential : CustodyM WrappingError Unit) =
        (r, { k with ring := ⟨ring.enclave,
          if world.Fails .deleteCredential then ring.keychain else none⟩ }) ∧
        ((∃ a, r = .ok a) ↔ ¬world.Fails .deleteCredential) := by
    intro ring
    obtain ⟨r, hrun, hok⟩ := run_deleteCredential_eq build world { k with ring := ring }
    rw [run_bind, hrun]
    rcases r with e | found
    · exact ⟨.error e, rfl, by simpa using hok⟩
    · exact ⟨.ok (), rfl, by simpa using hok⟩
  cases build with
  | macos enrols =>
    obtain ⟨r, hdelete⟩ := run_enclaveDelete_eq (.macos enrols) world k
    obtain ⟨r', hrun, hok⟩ := hrest (if world.Erases (.macos enrols) then k.ring.erased else k.ring)
    refine ⟨r', ?_, hok⟩
    rw [OsKeyring.erase]
    dsimp only
    rw [run_bind, run_outcome, hdelete]
    refine Eq.trans hrun ?_
    split_ifs <;> rfl
  | elsewhere =>
    obtain ⟨r', hrun, hok⟩ := hrest k.ring
    refine ⟨r', ?_, hok⟩
    rw [if_neg fun h : world.Erases .elsewhere => nomatch h.1]
    exact hrun

theorem ring_perform_of_asks {β : Type} {w : Moment} {a : CustodyAct β} (ha : a.Asks) :
    (k.perform build w a).2.ring = k.ring := by
  cases a with
  | enclaveExists | enclaveLoad | getPassword =>
    rw [perform, onRing]
    split <;> rfl
  | _ => exact ha.elim

/-- What asks changes nothing. -/
theorem ring_run_of_onlyAsks {ε α : Type} {x : CustodyM ε α} (hx : OnlyAsks x) :
    (k.run build world x).2.ring = k.ring :=
  Prog.Asks.eval (I := fun k' : Keystore => k'.ring = k.ring) hx
    (fun _ _ ha hk => (ring_perform_of_asks ha).trans hk) rfl

theorem ring_of_enclaveSeen {found : Bytes} (h : k.ring.enclaveSeen build = some found) :
    k.ring.enclave = some found := by
  rw [Ring.enclaveSeen] at h
  split_ifs at h
  exact h

/-- OnlyAsks whether the enclave has it changes nothing. -/
theorem run_enrolledInEnclave (build : Build) (world : World) (k : Keystore) : ∃ enrolled,
    k.run build world (OsKeyring.enrolledInEnclave build) = (.ok enrolled, k) := by
  cases build with
  | elsewhere => exact ⟨false, rfl⟩
  | macos enrols =>
    rw [OsKeyring.enrolledInEnclave, run_bind, run_outcome, run_tryAct, perform]
    by_cases hfails : world.Fails .enclaveExists
    · obtain ⟨e, he⟩ := @onRing_of_fails k _ _
        (.ok (k.ring.enclaveSeen (.macos enrols)).isSome, k.ring) hfails
      rw [he]
      exact ⟨false, rfl⟩
    · rw [onRing_of_calm (not_not.mp hfails)]
      exact ⟨_, rfl⟩

/-- A load that returns a key returns one that is in one of the places. -/
theorem ring_of_run_load {found : Bytes}
    (h : (k.run build world (OsKeyring.load build)).1 = .ok found) :
    k.ring.enclave = some found ∨
      ∃ text, k.ring.keychain = some text ∧ OsKeyring.readKey text = .ok found := by
  obtain ⟨enrolled, henrolled⟩ := run_enrolledInEnclave build world k
  rw [OsKeyring.load, run_bind, henrolled] at h
  cases enrolled with
  | true =>
    refine Or.inl ?_
    simp only [if_true, run_tryAct, perform] at h
    by_cases hfails : world.Fails .enclaveLoad
    · obtain ⟨e, he⟩ := onRing_of_fails hfails
      rw [he] at h
      cases h
    · rw [onRing_of_calm (not_not.mp hfails)] at h
      rcases hseen : k.ring.enclaveSeen build with _ | key
      · rw [hseen] at h
        cases h
      · rw [hseen] at h
        dsimp only at h
        split_ifs at h
        rw [ring_of_enclaveSeen hseen, Except.ok.inj h]
  | false =>
    refine Or.inr ?_
    simp only [Bool.false_eq_true, if_false, run_bind, run_tryAct, perform] at h
    by_cases hfails : world.Fails .getPassword
    · obtain ⟨e, he⟩ := @onRing_of_fails k _ _ (.ok k.ring.keychain, k.ring) hfails
      rw [he] at h
      cases h
    · rw [onRing_of_calm (not_not.mp hfails)] at h
      rcases htext : k.ring.keychain with _ | text
      · rw [htext] at h
        cases h
      · rw [htext] at h
        exact ⟨text, rfl, h⟩

theorem run_fallbackExists {found : Bool}
    (h : (k.run build world OsKeyring.fallbackExists).1 = .ok found) :
    found = k.ring.keychain.isSome := by
  rw [OsKeyring.fallbackExists, run_bind, run_tryAct, perform] at h
  by_cases hfails : world.Fails .getPassword
  · obtain ⟨e, he⟩ := @onRing_of_fails k _ _ (.ok k.ring.keychain, k.ring) hfails
    rw [he] at h
    cases h
  · rw [onRing_of_calm (not_not.mp hfails)] at h
    exact (Except.ok.inj h).symm

/-- What says that a key is there has seen one. -/
theorem ring_of_run_exists (h : (k.run build world (OsKeyring.exists build)).1 = .ok true) :
    k.ring.enclave ≠ none ∨ k.ring.keychain ≠ none := by
  have hfallback : (k.run build world OsKeyring.fallbackExists).1 = .ok true →
      k.ring.keychain ≠ none := fun h => by
    have := run_fallbackExists h
    exact Option.isSome_iff_ne_none.mp this.symm
  cases build with
  | elsewhere => exact Or.inr (hfallback h)
  | macos enrols =>
    rw [OsKeyring.exists, run_bind, run_tryAct, perform] at h
    by_cases hfails : world.Fails .enclaveExists
    · obtain ⟨e, he⟩ := @onRing_of_fails k _ _
        (.ok (k.ring.enclaveSeen (.macos enrols)).isSome, k.ring) hfails
      rw [he] at h
      cases h
    · rw [onRing_of_calm (not_not.mp hfails)] at h
      rcases hseen : k.ring.enclaveSeen (.macos enrols) with _ | key
      · rw [hseen] at h
        exact Or.inr (hfallback h)
      · exact Or.inl (by simp [ring_of_enclaveSeen hseen])

/-- Where nothing fails, a build finds what it sees. -/
theorem run_exists_of_calm (hcalm : world.Calm) (enrols : Bool) :
    (k.run (.macos enrols) world (OsKeyring.exists (.macos enrols))).1 =
      .ok ((k.ring.enclaveSeen (.macos enrols)).isSome || k.ring.keychain.isSome) := by
  have hnone : ∀ {β : Type} (a : CustodyAct β), (world.meets a).fault = none := fun a =>
    not_not.mp (hcalm a)
  rw [OsKeyring.exists, run_bind, run_tryAct, perform, onRing_of_calm (hnone _)]
  rcases hseen : k.ring.enclaveSeen (.macos enrols) with _ | key
  · show (k.run (.macos enrols) world OsKeyring.fallbackExists).1 = _
    rw [OsKeyring.fallbackExists, run_bind, run_tryAct, perform, onRing_of_calm (hnone _)]
    rfl
  · rfl

end Keystore

/-! ### What is in the places -/

/-- The world in which nothing fails. -/
def calmWorld : World := ⟨fun _ => ⟨⟨0, 0⟩, fun _ => 0, 0, none, none⟩⟩

namespace StoreHistory

open Keystore

variable {s : StoreHistory} {c : StoreCall}

/-- Keys are in the places, as they are written there. -/
structure Sound (s : StoreHistory) : Prop where
  enclave : ∀ key ∈ s.keystore.ring.enclave, key.length = 32
  keychain : ∀ text ∈ s.keystore.ring.keychain, ∃ key : WrappingKey, text = hexEncode key.1

/-- **Nothing is in the places but the last key**, and nothing at all once it was erased. -/
structure Current (s : StoreHistory) : Prop where
  enclave : ∀ key ∈ s.keystore.ring.enclave, s.last = some key
  keychain : ∀ key : WrappingKey, s.keystore.ring.keychain = some (hexEncode key.1) →
    s.last = some key.1
  erased : s.erased = true → s.keystore.ring = ⟨none, none⟩

theorem hexEncode_inj {key other : Bytes} (h : hexEncode key = hexEncode other) : key = other :=
  Option.some.inj (by rw [← hexDecode_hexEncode key, h, hexDecode_hexEncode])

/-- What a load or an answer can say is what is in the places. -/
theorem truthful_iff_current (hsound : s.Sound) : s.Truthful ↔ s.Current := by
  constructor
  · rintro ⟨hload, hexists⟩
    -- a build for each place, where nothing fails
    have hcalm : calmWorld.Calm := fun _ h => h rfl
    have hfound : ∀ build key, s.keystore.ring.key build = some key → s.last = some key := by
      intro build key hkey
      obtain ⟨r, hrun, hr⟩ := run_load build s.keystore hcalm
      rw [hkey] at hr
      rcases r with e | found
      · exact nomatch hr
      · refine hload build calmWorld key ?_
        rw [hrun, Option.some.inj hr]
    refine ⟨fun key hkey => hfound (.macos true) key ?_, fun key hkey => hfound (.macos false) key.1 ?_,
      fun herased => ?_⟩
    · have hlen := hsound.enclave key hkey
      rw [Option.mem_def] at hkey
      simp [Ring.key, Ring.enclaveSeen, Build.presenceAvailable, hkey, hlen]
    · simp [Ring.key, Ring.enclaveSeen, Build.presenceAvailable, hkey, readKey_hexEncode key.2,
        Except.toOption]
    · have hnone := hexists herased (.macos true) calmWorld _ (run_exists_of_calm hcalm true)
      rw [Bool.or_eq_false_iff, Option.isSome_eq_false_iff, Option.isSome_eq_false_iff,
        Option.isNone_iff_eq_none, Option.isNone_iff_eq_none] at hnone
      rcases hring : s.keystore.ring with ⟨enclave, keychain⟩
      rw [hring] at hnone
      obtain ⟨rfl, rfl⟩ : enclave = none ∧ keychain = none := hnone
      rfl
  · intro hcurrent
    refine ⟨fun build world key hrun => ?_, fun herased build world found hrun => ?_⟩
    · rcases ring_of_run_load hrun with henclave | ⟨text, htext, hread⟩
      · exact hcurrent.enclave key henclave
      · obtain ⟨stored, rfl⟩ := hsound.keychain text htext
        rw [readKey_hexEncode stored.2] at hread
        rw [hcurrent.keychain stored htext, Except.ok.inj hread]
    · have hring := hcurrent.erased herased
      cases found with
      | false => rfl
      | true =>
        rcases ring_of_run_exists hrun with h | h
        · exact absurd (by rw [hring]) h
        · exact absurd (by rw [hring]) h

/-! ### One more call -/

/-- What the history is after a call that stores. -/
theorem after_store (key : WrappingKey) (hc : c.request = .store key) :
    if c.world.StoreFails c.build s.keystore.ring key.1 then
      s.after c = { s with keystore := { s.keystore with
        ring := if c.world.Erases c.build then s.keystore.ring.erased else s.keystore.ring } }
    else s.after c = ⟨{ s.keystore with ring :=
      if c.build.presenceAvailable then
        ⟨some key.1, if c.world.Fails .deleteCredential then s.keystore.ring.keychain else none⟩
      else ⟨s.keystore.ring.enclave, some (hexEncode key.1)⟩ }, some key.1, false⟩ := by
  have hrun := run_store_eq c.build c.world s.keystore key.1
  rw [after, hc]
  dsimp only
  by_cases hfails : c.world.StoreFails c.build s.keystore.ring key.1
  · rw [if_pos hfails] at hrun ⊢
    obtain ⟨e, he⟩ := hrun
    rw [he]
  · rw [if_neg hfails] at hrun ⊢
    rw [hrun]

/-- And after one that erases. -/
theorem after_erase (hc : c.request = .erase) :
    s.after c = { s with
      keystore := { s.keystore with ring :=
        ⟨if c.world.Erases c.build then none else s.keystore.ring.enclave,
          if c.world.Fails .deleteCredential then s.keystore.ring.keychain else none⟩ }
      erased := s.erased || !decide (c.world.Fails .deleteCredential) } := by
  obtain ⟨r, hrun, hok⟩ := run_erase_eq c.build c.world s.keystore
  rw [after, hc]
  dsimp only
  rw [hrun]
  rcases r with e | a
  · have hfails : c.world.Fails .deleteCredential := by simpa using hok
    simp [hfails]
  · have hfails : ¬c.world.Fails .deleteCredential := hok.mp ⟨a, rfl⟩
    simp [hfails]

/-- What asks changes nothing. -/
theorem after_of_asks (hc : c.request = .load ∨ c.request = .exists) :
    (s.after c).keystore.ring = s.keystore.ring ∧ (s.after c).last = s.last ∧
      (s.after c).erased = s.erased := by
  have hring : ∀ {α : Type} {x : CustodyM WrappingError α}, OnlyAsks x →
      (s.keystore.run c.build c.world x).2.ring = s.keystore.ring := fun hx => ring_run_of_onlyAsks hx
  rcases hc with hc | hc
  · rw [after, hc]
    exact ⟨hring (onlyAsks_load _), rfl, rfl⟩
  · rw [after, hc]
    exact ⟨hring (onlyAsks_exists _), rfl, rfl⟩

theorem sound_after (hsound : s.Sound) : (s.after c).Sound := by
  obtain ⟨henclave, hkeychain⟩ := hsound
  rcases hc : c.request with key | _ | _ | _
  · have hafter := after_store (s := s) key hc
    by_cases hfails : c.world.StoreFails c.build s.keystore.ring key.1
    · rw [if_pos hfails] at hafter
      rw [hafter]
      split_ifs
      · exact ⟨nofun, hkeychain⟩
      · exact ⟨henclave, hkeychain⟩
    · rw [if_neg hfails] at hafter
      rw [hafter]
      by_cases hbuild : c.build.presenceAvailable = true
      · rw [if_pos hbuild]
        refine ⟨fun other hother => ?_, fun text htext => ?_⟩
        · obtain rfl := Option.some.inj hother
          exact key.2
        · dsimp only at htext
          split_ifs at htext
          · exact hkeychain text htext
          · exact nomatch htext
      · rw [if_neg hbuild]
        exact ⟨henclave, fun text htext => ⟨key, (Option.some.inj htext).symm⟩⟩
  · obtain ⟨hring, -⟩ := after_of_asks (s := s) (Or.inl hc)
    exact ⟨by rw [hring]; exact henclave, by rw [hring]; exact hkeychain⟩
  · rw [after_erase hc]
    refine ⟨fun key hkey => ?_, fun text htext => ?_⟩
    · dsimp only at hkey
      split_ifs at hkey
      · exact nomatch hkey
      · exact henclave key hkey
    · dsimp only at htext
      split_ifs at htext
      · exact hkeychain text htext
      · exact nomatch htext
  · obtain ⟨hring, -⟩ := after_of_asks (s := s) (Or.inr hc)
    exact ⟨by rw [hring]; exact henclave, by rw [hring]; exact hkeychain⟩

/-- With no more in the places, they stay current. -/
theorem Current.of_less {s' : StoreHistory} (h : s.Current) (hlast : s'.last = s.last)
    (herased : s'.erased = true → s.erased = true)
    (henclave : s'.keystore.ring.enclave = none ∨
      s'.keystore.ring.enclave = s.keystore.ring.enclave)
    (hkeychain : s'.keystore.ring.keychain = none ∨
      s'.keystore.ring.keychain = s.keystore.ring.keychain) : s'.Current where
  enclave key hkey := by
    rw [hlast]
    rcases henclave with hnone | hsame
    · rw [hnone] at hkey
      exact nomatch hkey
    · exact h.enclave key (hsame ▸ hkey)
  keychain key hkey := by
    rw [hlast]
    rcases hkeychain with hnone | hsame
    · rw [hnone] at hkey
      exact nomatch hkey
    · exact h.keychain key (hsame ▸ hkey)
  erased he := by
    have hring := h.erased (herased he)
    rw [hring] at henclave hkeychain
    rcases hr : s'.keystore.ring with ⟨enclave, keychain⟩
    rw [hr] at henclave hkeychain
    obtain rfl : enclave = none := henclave.elim id id
    obtain rfl : keychain = none := hkeychain.elim id id
    rfl

/-- **A call keeps the places current exactly if it leaves nothing behind.** -/
theorem current_after_iff (hsound : s.Sound) (hcurrent : s.Current) :
    (s.after c).Current ↔ c.LeavesNothing s.keystore.ring := by
  rcases hc : c.request with key | _ | _ | _
  · have hafter := after_store (s := s) key hc
    rw [StoreCall.LeavesNothing, hc]
    dsimp only
    by_cases hfails : c.world.StoreFails c.build s.keystore.ring key.1
    · rw [if_pos hfails] at hafter
      rw [hafter]
      refine ⟨fun _ h => absurd hfails h, fun _ => hcurrent.of_less rfl id ?_ ?_⟩
      · dsimp only
        split_ifs
        · exact Or.inl rfl
        · exact Or.inr rfl
      · dsimp only
        split_ifs <;> exact Or.inr rfl
    · rw [if_neg hfails] at hafter
      rw [hafter]
      by_cases hbuild : c.build.presenceAvailable = true
      · rw [if_pos hbuild, if_pos hbuild]
        constructor
        · intro h _
          by_cases hdelete : c.world.Fails .deleteCredential
          · refine Or.inr fun text htext => ?_
            obtain ⟨stored, rfl⟩ := hsound.keychain text htext
            have := h.keychain stored (by dsimp only; rw [if_pos hdelete]; exact htext)
            rw [Option.some.inj this]
          · exact Or.inl hdelete
        · intro h
          refine ⟨fun other hother => hother, fun stored hstored => ?_, nofun⟩
          dsimp only at hstored
          split_ifs at hstored with hdelete
          · have := (h hfails).resolve_left (fun hnot => hnot hdelete) _ hstored
            rw [hexEncode_inj this]
      · rw [if_neg hbuild, if_neg hbuild]
        constructor
        · intro h _ other hother
          exact (Option.some.inj (h.enclave other hother)).symm
        · intro h
          refine ⟨fun other hother => by rw [h hfails other hother], fun stored hstored => ?_, nofun⟩
          rw [hexEncode_inj (Option.some.inj hstored)]
  · obtain ⟨hring, hlast, herased⟩ := after_of_asks (s := s) (Or.inl hc)
    rw [StoreCall.LeavesNothing, hc]
    exact iff_of_true (hcurrent.of_less hlast (fun h => herased ▸ h)
      (Or.inr (congrArg Ring.enclave hring)) (Or.inr (congrArg Ring.keychain hring))) trivial
  · rw [StoreCall.LeavesNothing, hc, after_erase hc]
    dsimp only
    have hless : (if c.world.Erases c.build then none else s.keystore.ring.enclave) = none ∨
        (if c.world.Erases c.build then none else s.keystore.ring.enclave) =
          s.keystore.ring.enclave := by
      split_ifs
      · exact Or.inl rfl
      · exact Or.inr rfl
    by_cases hdelete : c.world.Fails .deleteCredential
    · refine iff_of_true (hcurrent.of_less rfl (fun h => ?_) hless ?_) fun h => absurd hdelete h
      · simpa [hdelete] using h
      · exact Or.inr (if_pos hdelete)
    · constructor
      · intro h _
        have hring := congrArg Ring.enclave (h.erased (by simp [hdelete]))
        dsimp only at hring
        split_ifs at hring with herases
        · exact Or.inl herases
        · exact Or.inr hring
      · intro h
        have henclave : (if c.world.Erases c.build then none else s.keystore.ring.enclave) = none := by
          split_ifs with herases
          · rfl
          · exact (h hdelete).resolve_left herases
        refine ⟨fun key hkey => ?_, fun key hkey => ?_, fun _ => ?_⟩
        · rw [Option.mem_def, henclave] at hkey
          exact nomatch hkey
        · rw [if_neg hdelete] at hkey
          exact nomatch hkey
        · rw [henclave, if_neg hdelete]
  · obtain ⟨hring, hlast, herased⟩ := after_of_asks (s := s) (Or.inr hc)
    rw [StoreCall.LeavesNothing, hc]
    exact iff_of_true (hcurrent.of_less hlast (fun h => herased ▸ h)
      (Or.inr (congrArg Ring.enclave hring)) (Or.inr (congrArg Ring.keychain hring))) trivial

theorem sound_foldl (vault : Vault) (session : Session) (calls : List StoreCall) :
    (calls.foldl after (start vault session)).Sound := by
  induction calls using List.reverseRecOn with
  | nil => exact ⟨nofun, nofun⟩
  | append_singleton calls c ih =>
    rw [List.foldl_append]
    exact sound_after ih

end StoreHistory

open StoreHistory in
/-- **The wrapping key is the last one stored**, and gone when it was erased, at every moment
of a history of calls exactly if no call of it leaves something of an older key behind. -/
theorem truthful_iff (vault : Vault) (session : Session) (calls : List StoreCall) :
    (∀ before rest, calls = before ++ rest → (before.foldl after (start vault session)).Truthful) ↔
      ∀ before c rest, calls = before ++ c :: rest →
        c.LeavesNothing (before.foldl after (start vault session)).keystore.ring := by
  have hsound := sound_foldl vault session
  have hcurrent : ∀ before : List StoreCall,
      (before.foldl after (start vault session)).Truthful ↔
        (before.foldl after (start vault session)).Current := fun before =>
    truthful_iff_current (hsound before)
  constructor
  · intro h before c rest hcalls
    have hafter := (hcurrent _).mp (h (before ++ [c]) rest (by rw [hcalls]; simp))
    rw [List.foldl_append] at hafter
    exact (current_after_iff (hsound before) ((hcurrent _).mp (h before _ hcalls))).mp hafter
  · intro h before
    induction before using List.reverseRecOn with
    | nil => exact fun _ _ => (hcurrent []).mpr ⟨nofun, nofun, nofun⟩
    | append_singleton before c ih =>
      intro rest hcalls
      rw [List.append_assoc] at hcalls
      have hbefore := (hcurrent _).mp (ih _ hcalls)
      rw [hcurrent, List.foldl_append]
      exact (current_after_iff (hsound before) hbefore).mpr (h before c rest hcalls)

/-- A key of one byte. -/
def keyOf (b : UInt8) : WrappingKey := ⟨List.replicate 32 b, List.length_replicate⟩

/-- A build that enrols stores a key, and one that does not stores another: the first build
loads its own. -/
theorem not_truthful_of_two_builds :
    ¬(([⟨.macos true, calmWorld, .store (keyOf 1)⟩, ⟨.macos false, calmWorld, .store (keyOf 2)⟩]
      : List StoreCall).foldl StoreHistory.after (.start ⟨"", none, none⟩ ⟨none, none, ⟨0, 0⟩⟩)
    ).Truthful := by
  intro h
  have hload := h.1 (.macos true) calmWorld (keyOf 1).1 rfl
  exact absurd (Option.some.inj hload) (by decide)

end Syndeo
