import Mathlib.Data.Finset.Card
import Mathlib.Data.List.MinMax
import Syndeo.Concurrent.Events
import Syndeo.Data.Table
import Syndeo.Http.Text

/-!
# The leaves that are kept

The proxy mints a certificate for each host and keeps the configurations that use them,
so many of them and no more: for a host that has none the one that was used longest ago
goes. When a host was used is told by a counter that goes up with every call, whether it
finds something or not.

`Syndeo.Proxy.Leaves.lastUse` says of a history of calls when each host was last used.
After any history, what is kept are the hosts that were used last
(`Syndeo.Proxy.Leaves.recent_run`). The calls of `server_config` look and insert under a
lock each, and mint in between with none, so that two of them may mint for one host;
whatever they do comes to a history of calls (`Syndeo.Proxy.Leaves.recent_serving`).
-/

namespace Syndeo.Proxy

open Tables

/-- `Leaves`, with `clock` a `u64`. -/
structure Leaves (γ : Type) where
  byHost : Table String (γ × ℕ)
  clock : ℕ
  capacity : ℕ

namespace Leaves

variable {γ : Type}

/-- `Leaves::new`. -/
def new (capacity : ℕ) : Leaves γ := ⟨∅, 0, capacity⟩

/-- `Leaves::get`. -/
def get (host : String) (self : Leaves γ) : Option γ × Leaves γ :=
  let clock := wrap (self.clock + 1)
  match self.byHost.lookup host with
  | some (config, _) =>
    (some config, { self with clock, byHost := self.byHost.insert host (config, clock) })
  | none => (none, { self with clock })

/-- The host that was used longest ago. -/
def oldest (self : Leaves γ) : Option String :=
  (self.byHost.entries.argmin fun e => e.2.2).map (·.1)

/-- `Leaves::insert`. -/
def insert (host : String) (config : γ) (self : Leaves γ) : Leaves γ :=
  let clock := wrap (self.clock + 1)
  let kept :=
    if host ∉ self.byHost ∧ self.capacity ≤ self.byHost.keys.length then
      match self.oldest with
      | some oldest => self.byHost.erase oldest
      | none => self.byHost
    else self.byHost
  { self with clock, byHost := kept.insert host (config, clock) }

/-! ### Histories of calls -/

/-- A call. -/
inductive Op (γ : Type)
  | get (host : String)
  | insert (host : String) (config : γ)

/-- What a call makes of the leaves. -/
def after (self : Leaves γ) : Op γ → Leaves γ
  | .get host => (self.get host).2
  | .insert host config => self.insert host config

/-- After a history of calls. -/
def run (capacity : ℕ) (ops : List (Op γ)) : Leaves γ := ops.foldl after (new capacity)

/-- Which host a call is a use of: the one it inserts, or finds. -/
def uses (self : Leaves γ) : Op γ → Option String
  | .get host => if host ∈ self.byHost then some host else none
  | .insert host _ => some host

/-- Which host was used when. -/
def usedAt (capacity : ℕ) (ops : List (Op γ)) (i : ℕ) : Option String :=
  ops[i]?.bind (run capacity (ops.take i)).uses

/-- **When a host was last used**, counted from one, and zero for never. -/
def lastUse (capacity : ℕ) (ops : List (Op γ)) (host : String) : ℕ :=
  ((List.range ops.length).filter fun i => usedAt capacity ops i = some host).getLast?.elim 0 (· + 1)

/-- What a call inserts. -/
def Op.inserted : Op γ → Option (String × γ)
  | .get _ => none
  | .insert host config => some (host, config)

/-- The hosts that were ever inserted. -/
def everInserted (ops : List (Op γ)) : Finset String :=
  ((ops.filterMap Op.inserted).map Prod.fst).toFinset

/-- What was last inserted for a host. -/
def lastInserted (ops : List (Op γ)) (host : String) : Option γ :=
  ((ops.filterMap Op.inserted).filter fun e => e.1 = host).getLast?.map Prod.snd

/-- **The hosts that were used last**, so many as there is room for, each with what was
last inserted for it. -/
structure Recent (capacity : ℕ) (ops : List (Op γ)) (l : Leaves γ) : Prop where
  length : l.byHost.keys.length = min capacity (everInserted ops).card
  ever : ∀ host ∈ l.byHost, host ∈ everInserted ops
  latest : ∀ host ∈ l.byHost, ∀ other ∈ everInserted ops, other ∉ l.byHost →
    lastUse capacity ops other < lastUse capacity ops host
  last : ∀ host config used, l.byHost.lookup host = some (config, used) →
    lastInserted ops host = some config

/-! ### One more call -/

section Snoc

variable {capacity : ℕ} {ops : List (Op γ)} {op : Op γ} {host other : String} {config : γ}

theorem run_snoc : run capacity (ops ++ [op]) = (run capacity ops).after op := by
  rw [run, List.foldl_append]
  rfl

theorem usedAt_snoc_of_lt {i : ℕ} (h : i < ops.length) :
    usedAt capacity (ops ++ [op]) i = usedAt capacity ops i := by
  rw [usedAt, usedAt, List.getElem?_append_left h, List.take_append_of_le_length (Nat.le_of_lt h)]

theorem usedAt_snoc : usedAt capacity (ops ++ [op]) ops.length = (run capacity ops).uses op := by
  rw [usedAt, List.getElem?_concat_length, List.take_left', Option.bind_some]
  rfl

theorem lastUse_snoc : lastUse capacity (ops ++ [op]) host =
    if (run capacity ops).uses op = some host then ops.length + 1
    else lastUse capacity ops host := by
  have hbefore : (List.range ops.length).filter (fun i => usedAt capacity (ops ++ [op]) i = some host) =
      (List.range ops.length).filter fun i => usedAt capacity ops i = some host :=
    List.filter_congr fun i hi => by rw [usedAt_snoc_of_lt (List.mem_range.mp hi)]
  rw [lastUse, List.length_append, List.length_singleton, List.range_succ, List.filter_append,
    hbefore, List.filter_singleton, usedAt_snoc]
  split_ifs with huse
  · simp [huse]
  · simp [huse, lastUse]

theorem lastUse_nil : lastUse capacity ([] : List (Op γ)) host = 0 := rfl

theorem lastUse_le : lastUse capacity ops host ≤ ops.length := by
  induction ops using List.reverseRecOn with
  | nil => exact Nat.le_refl 0
  | append_singleton ops op ih =>
    rw [lastUse_snoc, List.length_append, List.length_singleton]
    split_ifs <;> omega

/-- At one time one host is used. -/
theorem eq_of_lastUse_eq (h : lastUse capacity ops host = lastUse capacity ops other)
    (hne : lastUse capacity ops host ≠ 0) : host = other := by
  induction ops using List.reverseRecOn with
  | nil => exact absurd lastUse_nil hne
  | append_singleton ops op ih =>
    have hle : ∀ {host}, lastUse capacity ops host ≤ ops.length := lastUse_le
    rw [lastUse_snoc] at hne
    rw [lastUse_snoc, lastUse_snoc] at h
    split_ifs at h hne with hhost hother hother
    · exact Option.some.inj (hhost.symm.trans hother)
    · exact absurd h (by have := @hle other; omega)
    · exact absurd h (by have := @hle host; omega)
    · exact ih h hne

theorem filterMap_inserted_snoc_get :
    (ops ++ [Op.get host]).filterMap Op.inserted = ops.filterMap Op.inserted := by
  rw [List.filterMap_append]
  exact List.append_nil _

theorem everInserted_snoc_get : everInserted (ops ++ [.get host]) = everInserted ops := by
  rw [everInserted, filterMap_inserted_snoc_get, everInserted]

theorem everInserted_snoc_insert :
    everInserted (ops ++ [.insert host config]) = Insert.insert host (everInserted ops) := by
  ext
  simp [everInserted, Op.inserted]

theorem lastInserted_snoc_get : lastInserted (ops ++ [.get host]) other = lastInserted ops other := by
  rw [lastInserted, filterMap_inserted_snoc_get, lastInserted]

theorem lastInserted_snoc_insert : lastInserted (ops ++ [.insert host config]) other =
    if host = other then some config else lastInserted ops other := by
  split_ifs with h <;> simp [lastInserted, Op.inserted, h]

/-- What was inserted was used. -/
theorem lastUse_ne_zero (h : host ∈ everInserted ops) : lastUse capacity ops host ≠ 0 := by
  induction ops using List.reverseRecOn with
  | nil => exact absurd h (Finset.notMem_empty _)
  | append_singleton ops op ih =>
    rw [lastUse_snoc]
    split_ifs with huse
    · exact Nat.succ_ne_zero _
    · cases op with
      | get => exact ih (everInserted_snoc_get ▸ h)
      | insert inserted config =>
        rw [everInserted_snoc_insert, Finset.mem_insert] at h
        rcases h with rfl | h
        · exact absurd rfl huse
        · exact ih h

end Snoc

/-! ### The law -/

/-- What is known of the leaves after a history: the counter tells the time, and a host's
stamp the time it was last used. -/
structure Sound (capacity : ℕ) (ops : List (Op γ)) (l : Leaves γ) : Prop
    extends Recent capacity ops l where
  clock : l.clock = ops.length
  capacity_eq : l.capacity = capacity
  stamp : ∀ host config used, l.byHost.lookup host = some (config, used) →
    used = lastUse capacity ops host

section Law

variable {capacity : ℕ} {ops : List (Op γ)} {host other : String} {config : γ} {l : Leaves γ}

theorem length_keys_insert (t : Table String (γ × ℕ)) (host : String) (v : γ × ℕ) :
    (t.insert host v).keys.length = t.keys.length + if host ∈ t then 0 else 1 := by
  rw [AList.keys_insert, List.length_cons]
  split_ifs with h
  · have hmem : host ∈ t.keys := h
    have hpos := List.length_pos_of_mem hmem
    rw [List.length_erase_of_mem hmem]
    omega
  · rw [List.erase_of_not_mem h]

theorem length_keys_erase {t : Table String (γ × ℕ)} {host : String} (h : host ∈ t) :
    (t.erase host).keys.length + 1 = t.keys.length := by
  have hmem : host ∈ t.keys := h
  have hpos := List.length_pos_of_mem hmem
  rw [AList.keys_erase, List.length_erase_of_mem hmem]
  omega

/-- With room left, all that was ever inserted is kept. -/
theorem Recent.mem_of_lt (h : Recent capacity ops l) (hlt : l.byHost.keys.length < capacity)
    (hever : host ∈ everInserted ops) : host ∈ l.byHost := by
  have hsub : l.byHost.keys.toFinset ⊆ everInserted ops := fun host hhost =>
    h.ever host (List.mem_toFinset.mp hhost)
  have hcard : (everInserted ops).card ≤ l.byHost.keys.toFinset.card := by
    rw [List.toFinset_card_of_nodup l.byHost.keys_nodup, h.length]
    have := h.length
    omega
  have heq := Finset.eq_of_subset_of_card_le hsub hcard
  rw [← heq] at hever
  exact List.mem_toFinset.mp hever

/-- The oldest is kept, and all others were used after it. -/
theorem Sound.oldest_spec (h : Sound capacity ops l) {oldest : String}
    (hold : l.oldest = some oldest) : oldest ∈ l.byHost ∧
      ∀ host ∈ l.byHost, host ≠ oldest →
        lastUse capacity ops oldest < lastUse capacity ops host := by
  obtain ⟨⟨_, config, used⟩, he, rfl⟩ := Option.map_eq_some_iff.mp hold
  have hentry : l.byHost.lookup _ = some (config, used) :=
    AList.mem_lookup_iff.mpr (List.argmin_mem he)
  have hmem := AList.lookup_isSome.mp (by rw [hentry]; rfl)
  refine ⟨hmem, fun host hhost hne => ?_⟩
  obtain ⟨⟨config', used'⟩, hrow⟩ := Option.isSome_iff_exists.mp (AList.lookup_isSome.mpr hhost)
  have hle : used ≤ used' :=
    List.le_of_mem_argmin (AList.mem_lookup_iff.mp hrow : (⟨host, config', used'⟩ : Σ _, _) ∈ _) he
  rw [h.stamp _ _ _ hentry, h.stamp _ _ _ hrow] at hle
  refine lt_of_le_of_ne hle fun heq => hne ?_
  exact (eq_of_lastUse_eq heq (lastUse_ne_zero (h.ever _ hmem))).symm

theorem sound_new : Sound capacity ([] : List (Op γ)) (new capacity) where
  length := by simp [new, everInserted]
  ever _ h := absurd h (AList.notMem_empty _)
  latest _ h := absurd h (AList.notMem_empty _)
  last _ _ _ h := absurd h (by simp [new])
  clock := rfl
  capacity_eq := rfl
  stamp _ _ _ h := absurd h (by simp [new])

theorem wrap_clock (h : Sound capacity ops l) (hlen : ops.length + 1 < Text.u64Bound) :
    wrap (l.clock + 1) = ops.length + 1 := by
  rw [h.clock]
  exact wrap_of_lt hlen

theorem sound_get (h : Sound capacity ops (run capacity ops))
    (hlen : ops.length + 1 < Text.u64Bound) :
    Sound capacity (ops ++ [.get host]) (run capacity (ops ++ [.get host])) := by
  have huse : (run capacity ops).uses (.get host) =
      if host ∈ (run capacity ops).byHost then some host else none := rfl
  rw [run_snoc, after, get, wrap_clock h hlen]
  rcases hrow : (run capacity ops).byHost.lookup host with _ | ⟨config, used⟩
  · -- nothing found, so it was no use of anything
    rw [if_neg (AList.lookup_eq_none.mp hrow)] at huse
    have hlast : ∀ other, lastUse capacity (ops ++ [.get host]) other = lastUse capacity ops other :=
      fun other => by rw [lastUse_snoc, huse, if_neg nofun]
    exact {
      length := by rw [everInserted_snoc_get]; exact h.length
      ever := by rw [everInserted_snoc_get]; exact h.ever
      latest := by
        simp only [everInserted_snoc_get, hlast]
        exact h.latest
      last := by
        simp only [lastInserted_snoc_get]
        exact h.last
      clock := by simp
      capacity_eq := h.capacity_eq
      stamp := by
        simp only [hlast]
        exact h.stamp }
  · have hmem : host ∈ (run capacity ops).byHost := AList.lookup_isSome.mp (by rw [hrow]; rfl)
    rw [if_pos hmem] at huse
    have hlast : ∀ other, lastUse capacity (ops ++ [.get host]) other =
        if host = other then ops.length + 1 else lastUse capacity ops other :=
      fun other => by rw [lastUse_snoc, huse]; simp only [Option.some.injEq]
    have hkeys : ∀ other, other ∈ (run capacity ops).byHost.insert host (config, ops.length + 1) ↔
        other ∈ (run capacity ops).byHost := by
      intro other
      rw [AList.mem_insert]
      exact ⟨fun h => h.elim (fun heq => heq ▸ hmem) id, Or.inr⟩
    exact {
      length := by
        rw [everInserted_snoc_get]
        dsimp only
        rw [length_keys_insert, if_pos hmem]
        exact h.length
      ever := by
        intro other hother
        rw [everInserted_snoc_get]
        exact h.ever other ((hkeys other).mp hother)
      latest := by
        intro kept hkept other hother hgone
        rw [everInserted_snoc_get] at hother
        have hgone' := mt (hkeys other).mpr hgone
        have hbefore := h.latest kept ((hkeys kept).mp hkept) other hother hgone'
        rw [hlast, hlast, if_neg (by rintro rfl; exact hgone' hmem)]
        split_ifs
        · exact Nat.lt_succ_of_le lastUse_le
        · exact hbefore
      last := by
        intro other config' used' hother
        rw [lastInserted_snoc_get]
        dsimp only at hother
        rcases eq_or_ne other host with rfl | hne
        · rw [AList.lookup_insert] at hother
          obtain ⟨rfl, -⟩ := Prod.mk.inj (Option.some.inj hother)
          exact h.last _ _ _ hrow
        · rw [AList.lookup_insert_ne hne] at hother
          exact h.last _ _ _ hother
      clock := by simp
      capacity_eq := h.capacity_eq
      stamp := by
        intro other config' used' hother
        rw [hlast]
        dsimp only at hother
        rcases eq_or_ne other host with rfl | hne
        · rw [AList.lookup_insert] at hother
          rw [if_pos rfl]
          exact (Prod.mk.inj (Option.some.inj hother)).2.symm
        · rw [AList.lookup_insert_ne hne] at hother
          rw [if_neg hne.symm]
          exact h.stamp _ _ _ hother }

/-- Inserting into what is kept of the others. -/
theorem sound_insert_into (h : Sound capacity ops (run capacity ops)) {t : Table String (γ × ℕ)}
    (hrow : ∀ other v, other ≠ host → t.lookup other = some v →
      (run capacity ops).byHost.lookup other = some v)
    (hlength : (t.insert host (config, ops.length + 1)).keys.length =
      min capacity (Insert.insert host (everInserted ops)).card)
    (hlatest : ∀ kept ∈ t, ∀ other ∈ everInserted ops, other ∉ t → kept ≠ host → other ≠ host →
      lastUse capacity ops other < lastUse capacity ops kept) :
    Sound capacity (ops ++ [.insert host config])
      ⟨t.insert host (config, ops.length + 1), ops.length + 1, capacity⟩ := by
  have hlast : ∀ other, lastUse capacity (ops ++ [.insert host config]) other =
      if host = other then ops.length + 1 else lastUse capacity ops other := by
    intro other
    have huse : (run capacity ops).uses (.insert host config) = some host := rfl
    rw [lastUse_snoc, huse]
    simp only [Option.some.injEq]
  have hbefore : ∀ {other v}, other ≠ host →
      (t.insert host (config, ops.length + 1)).lookup other = some v →
        (run capacity ops).byHost.lookup other = some v := fun hne hother =>
    hrow _ _ hne (by rwa [AList.lookup_insert_ne hne] at hother)
  exact {
    length := by rw [everInserted_snoc_insert]; exact hlength
    ever := by
      intro other hother
      rw [everInserted_snoc_insert, Finset.mem_insert]
      rcases eq_or_ne other host with rfl | hne
      · exact Or.inl rfl
      · obtain ⟨v, hv⟩ := Option.isSome_iff_exists.mp (AList.lookup_isSome.mpr hother)
        exact Or.inr (h.ever other (AList.lookup_isSome.mp (by rw [hbefore hne hv]; rfl)))
    latest := by
      intro kept hkept other hother hgone
      rw [AList.mem_insert, not_or] at hgone
      rw [everInserted_snoc_insert, Finset.mem_insert] at hother
      rw [hlast, hlast, if_neg (Ne.symm hgone.1)]
      split_ifs with hhost
      · exact Nat.lt_succ_of_le lastUse_le
      · exact hlatest kept (((AList.mem_insert _).mp hkept).resolve_left (Ne.symm hhost)) other
          (hother.resolve_left hgone.1) hgone.2 (Ne.symm hhost) hgone.1
    last := by
      intro other config' used' hother
      rw [lastInserted_snoc_insert]
      rcases eq_or_ne other host with rfl | hne
      · rw [AList.lookup_insert] at hother
        rw [if_pos rfl, (Prod.mk.inj (Option.some.inj hother)).1]
      · rw [if_neg hne.symm]
        exact h.last _ _ _ (hbefore hne hother)
    clock := by simp
    capacity_eq := rfl
    stamp := by
      intro other config' used' hother
      rw [hlast]
      rcases eq_or_ne other host with rfl | hne
      · rw [AList.lookup_insert] at hother
        rw [if_pos rfl]
        exact (Prod.mk.inj (Option.some.inj hother)).2.symm
      · rw [if_neg hne.symm]
        exact h.stamp _ _ _ (hbefore hne hother) }

theorem sound_insert (hpos : 1 ≤ capacity) (h : Sound capacity ops (run capacity ops))
    (hlen : ops.length + 1 < Text.u64Bound) :
    Sound capacity (ops ++ [.insert host config]) (run capacity (ops ++ [.insert host config])) := by
  rw [run_snoc, after, insert, wrap_clock h hlen, h.capacity_eq]
  have hlength := h.length
  split_ifs with hfull
  · obtain ⟨hnew, hfull⟩ := hfull
    rcases hold : (run capacity ops).oldest with _ | oldest
    · -- at capacity there is an oldest
      have hentries : (run capacity ops).byHost.entries = [] :=
        List.argmin_eq_none.mp (Option.map_eq_none_iff.mp hold)
      have hnone : (run capacity ops).byHost.keys.length = 0 := by
        rw [AList.keys, hentries]
        rfl
      omega
    · obtain ⟨hmem, hothers⟩ := h.oldest_spec hold
      have hne : host ≠ oldest := fun heq => hnew (heq ▸ hmem)
      have herase := length_keys_erase hmem
      have hnot : host ∉ (run capacity ops).byHost.erase oldest := fun hin =>
        hnew (AList.mem_erase.mp hin).2
      dsimp only
      refine sound_insert_into h (fun other v hother hv => ?_) ?_ ?_
      · rcases eq_or_ne other oldest with rfl | hne'
        · rw [AList.lookup_erase] at hv
          exact nomatch hv
        · rwa [AList.lookup_erase_ne hne'] at hv
      · have hcard : (everInserted ops).card ≤ (Insert.insert host (everInserted ops)).card :=
          Finset.card_le_card (Finset.subset_insert _ _)
        rw [length_keys_insert, if_neg hnot]
        omega
      · intro kept hkept other hother hgone _ _
        obtain ⟨hkeptne, hkeptmem⟩ := AList.mem_erase.mp hkept
        rcases eq_or_ne other oldest with rfl | hne'
        · exact hothers kept hkeptmem hkeptne
        · exact h.latest kept hkeptmem other hother fun hin =>
            hgone (AList.mem_erase.mpr ⟨hne', hin⟩)
  · refine sound_insert_into h (fun _ _ _ hv => hv) ?_ fun kept hkept other hother hgone _ _ =>
      h.latest kept hkept other hother hgone
    rw [length_keys_insert]
    split_ifs with hmem
    · rw [Finset.insert_eq_of_mem (h.ever _ hmem)]
      exact hlength
    · have hroom : (run capacity ops).byHost.keys.length < capacity := by
        by_contra hcontra
        exact hfull ⟨hmem, Nat.le_of_not_lt hcontra⟩
      rw [Finset.card_insert_of_notMem (mt (h.toRecent.mem_of_lt hroom) hmem)]
      omega

theorem sound_run (hpos : 1 ≤ capacity) (hlen : ops.length < Text.u64Bound) :
    Sound capacity ops (run capacity ops) := by
  induction ops using List.reverseRecOn with
  | nil => exact sound_new
  | append_singleton ops op ih =>
    rw [List.length_append, List.length_singleton] at hlen
    have hbefore := ih (Nat.lt_of_succ_lt hlen)
    cases op with
    | get host => exact sound_get hbefore hlen
    | insert host config => exact sound_insert hpos hbefore hlen

/-- **What is kept are the hosts that were used last**, after any history of calls. -/
theorem recent_run (hpos : 1 ≤ capacity) (hlen : ops.length < Text.u64Bound) :
    Recent capacity ops (run capacity ops) := (sound_run hpos hlen).toRecent

end Law

/-! ### Calls of `server_config` -/

/-- The leaves, and the hosts that calls are minting for. -/
structure Serving (γ : Type) where
  leaves : Leaves γ
  minting : List String

/-- What happens of the calls that are going on. -/
inductive Event (γ : Type)
  /-- A call looks for the host. -/
  | asked (host : String)
  /-- One that found nothing has minted, and keeps what it has. -/
  | minted (host : String) (config : γ)
  /-- It could not mint. -/
  | failed (host : String)

/-- **`server_config`**, step by step: the lock is held for one step at a time. -/
def Serving.after (s : Serving γ) : Event γ → Option (Serving γ)
  | .asked host =>
    match s.leaves.get host with
    | (some _, leaves) => some { s with leaves }
    | (none, leaves) => some ⟨leaves, s.minting ++ [host]⟩
  | .minted host config =>
    if host ∈ s.minting then some ⟨s.leaves.insert host config, s.minting.erase host⟩ else none
  | .failed host => if host ∈ s.minting then some { s with minting := s.minting.erase host } else none

/-- The steps. -/
def Serving.Step (s : Serving γ) (e : Event γ) (s' : Serving γ) : Prop := s.after e = some s'

/-- The call of `Leaves` that an event is. -/
def Event.op : Event γ → Option (Op γ)
  | .asked host => some (.get host)
  | .minted host config => some (.insert host config)
  | .failed _ => none

section Serving

variable {capacity : ℕ} {ops : List (Op γ)} {events : List (Event γ)} {s : Serving γ}

theorem leaves_of_step {s s' : Serving γ} {e : Event γ} (h : s.Step e s') :
    s'.leaves = e.op.elim s.leaves s.leaves.after := by
  cases e with
  | asked host =>
    rw [Serving.Step, Serving.after] at h
    rcases hget : s.leaves.get host with ⟨_ | found, leaves⟩ <;> rw [hget] at h <;>
      obtain rfl := Option.some.inj h
    all_goals exact (congrArg Prod.snd hget).symm
  | minted host config =>
    rw [Serving.Step, Serving.after] at h
    split_ifs at h
    obtain rfl := Option.some.inj h
    rfl
  | failed host =>
    rw [Serving.Step, Serving.after] at h
    split_ifs at h
    obtain rfl := Option.some.inj h
    rfl

/-- Whatever the calls do comes to a history. -/
theorem leaves_of_runs {s s' : Serving γ} (h : Events.Runs Serving.Step s events s') :
    s'.leaves = (events.filterMap Event.op).foldl after s.leaves := by
  induction h with
  | nil => rfl
  | @cons _ u _ e rest hfirst _ ih =>
    rw [ih, leaves_of_step hfirst]
    rcases hop : e.op with _ | op
    · rw [List.filterMap_cons_none hop]
      rfl
    · rw [List.filterMap_cons_some hop]
      rfl

/-- **What is kept are the hosts that were used last**: after any history of calls of `get`
and `insert`, and so at every moment of any calls of `server_config`, however their steps
come between one another. -/
theorem recent_serving (hpos : 1 ≤ capacity) :
    (∀ ops : List (Op γ), ops.length < Text.u64Bound → Recent capacity ops (run capacity ops)) ∧
      ∀ (events : List (Event γ)) (s : Serving γ), events.length < Text.u64Bound →
        Events.Runs Serving.Step ⟨new capacity, []⟩ events s →
          Recent capacity (events.filterMap Event.op) s.leaves := by
  refine ⟨fun ops hlen => recent_run hpos hlen, fun events s hlen hruns => ?_⟩
  rw [leaves_of_runs hruns]
  exact recent_run hpos (lt_of_le_of_lt (List.length_filterMap_le _ _) hlen)

/-- Three hosts where there is room for two, with the first looked for in between: two of
them are kept. -/
theorem recent_serving_three : (run 2 [.insert "a" 1, .insert "b" 2, .get "a", .insert "c" 3]
    : Leaves ℕ).byHost.keys.length = 2 :=
  ((@recent_serving ℕ 2 (by decide)).1 _ (by decide)).length.trans
    (by decide +kernel)

end Serving

end Leaves

end Syndeo.Proxy
