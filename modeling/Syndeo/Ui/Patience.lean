import Syndeo.Ui.Prompter

/-!
# Answered by its own person

What is kept up of each asker is `Syndeo.Ui.Window.Accounted`: where its question is,
what is in its channel is what the person said in its own dialog, and if it has
returned, it was with that, or with a refusal that has one of the reasons there are.
In time, that a wait runs out is such a reason.

That an asker is answered at all is that it can always go on by itself: there is room
in the channel for whoever posts, and a wait ends with its patience
(`Syndeo.Ui.Window.returns_of_sound`).
-/

namespace Syndeo

namespace Ui

open Shell Events

variable {L : Libraries}

namespace Window

variable {s s' : Window L} {e : Event L} {i j : ℕ} {a : Asker L}

/-- **An asker is accounted for.** -/
structure Accounted (s : Window L) (i : ℕ) (a : Asker L) : Prop where
  posting : a.stage = .posting → ¬s.Holds i
  unseen : a.stage = .posting ∨ i ∈ s.asks → a.drawn = none ∧ a.said = none
  shown : s.modal = some i → a.said = none
  slot : ∀ given ∈ a.slot, a.said = some given
  held : a.stage = .posted ∨ (∃ since, a.stage = .waiting since) → a.slot = none →
    s.Holds i ∨ s.Gone
  since_le : ∀ since, a.stage = .waiting since → since ≤ s.clock
  returned : ∀ given time, a.stage = .returned given time → a.said = some given ∨
    given = a.ask.onSilence ∧ (s.Gone ∨ ∃ drawn ∈ a.drawn, drawn + patience ≤ time)

/-- **The invariant**: every asker is accounted for, a question is in one place, and
whoever posts finds one. -/
structure Sound (s : Window L) : Prop where
  askers : ∀ i a, s.askers[i]? = some a → s.Accounted i a
  nodup : s.asks.Nodup
  notMem : ∀ i, s.modal = some i → i ∉ s.asks
  bound : ∀ i, s.Holds i → i < s.askers.length
  room : s.phase = .gone ∨ s.asks.length + s.posting ≤ asksCapacity
  closed : s.closed = true → s.Gone
  starting : s.phase = .starting → s.askers = [] ∧ s.asks = []

theorem sound_start (clock : ℕ) : Sound (start clock : Window L) where
  askers i a ha := by simp [start] at ha
  nodup := List.nodup_nil
  notMem i hi := by simp [start] at hi
  bound i hi := by simp [start, Holds] at hi
  room := Or.inr (by simp [start, posting])
  closed h := by simp [start] at h
  starting _ := ⟨rfl, rfl⟩

/-- An asker stays accounted for where its question stays where it is. -/
theorem Accounted.mono (h : s.Accounted i a) (hasks : i ∈ s'.asks → i ∈ s.asks)
    (hmodal : s'.modal = some i → s.modal = some i)
    (hheld : s.Holds i ∨ s.Gone → s'.Holds i ∨ s'.Gone) (hgone : s.Gone → s'.Gone)
    (hclock : s.clock ≤ s'.clock) : s'.Accounted i a where
  posting hstage hholds := h.posting hstage (hholds.imp hasks hmodal)
  unseen hunseen := h.unseen (hunseen.imp id hasks)
  shown hshown := h.shown (hmodal hshown)
  slot := h.slot
  held hstage hslot := hheld (h.held hstage hslot)
  since_le since hstage := (h.since_le since hstage).trans hclock
  returned given time hstage := (h.returned given time hstage).imp id
    fun hrefused => ⟨hrefused.1, hrefused.2.imp hgone id⟩

/-! ### What an asker does -/

/-- An asker returns with what it was told, or with a refusal for a reason. -/
theorem Accounted.give {given : Given} {time : ℕ} (h : s.Accounted i a)
    (hreason : a.said = some given ∨
      given = a.ask.onSilence ∧ (s.Gone ∨ ∃ drawn ∈ a.drawn, drawn + patience ≤ time)) :
    s.Accounted i (a.give given time) where
  posting hstage := by cases hstage
  unseen hunseen := by
    rcases hunseen with hstage | hasks
    · cases hstage
    · exact h.unseen (Or.inr hasks)
  shown := h.shown
  slot := h.slot
  held hstage := by
    rcases hstage with hstage | ⟨since, hstage⟩
    · cases hstage
    · cases hstage
  since_le since hstage := by cases hstage
  returned given' time' hstage := by
    obtain ⟨rfl, rfl⟩ := Stage.returned.inj hstage
    exact hreason

/-- A question finds a place in the channel. -/
theorem Accounted.post (h : s.Accounted i a) (hstage : a.stage = .posting) :
    ({ s with asks := s.asks ++ [i] } : Window L).Accounted i { a with stage := .posted } where
  posting hstage := by cases hstage
  unseen _ := h.unseen (Or.inl hstage)
  shown := h.shown
  slot := h.slot
  held _ _ := Or.inl (Or.inl (List.mem_append_right _ List.mem_cons_self))
  since_le since hstage := by cases hstage
  returned given time hstage := by cases hstage

/-- An asker begins to wait. -/
theorem Accounted.wait (h : s.Accounted i a) (hstage : a.stage = .posted) :
    s.Accounted i { a with stage := .waiting s.clock } where
  posting hstage := by cases hstage
  unseen hunseen := by
    rcases hunseen with hstage | hasks
    · cases hstage
    · exact h.unseen (Or.inr hasks)
  shown := h.shown
  slot := h.slot
  held _ := h.held (Or.inl hstage)
  since_le since hstage := le_of_eq (Stage.waiting.inj hstage).symm
  returned given time hstage := by cases hstage

/-- A wait that began when the question was drawn runs out. -/
theorem exists_drawn {since : ℕ} (hintime : drawnInTime a = true) (hstage : a.stage = .waiting since) :
    ∃ drawn ∈ a.drawn, drawn ≤ since := by
  rw [drawnInTime, hstage] at hintime
  split at hintime
  · rename_i since' drawn hwaiting hdrawn
    obtain rfl := Stage.waiting.inj hwaiting
    exact ⟨drawn, hdrawn, of_decide_eq_true hintime⟩
  · cases hintime

/-- **The steps of an asker**: it stays accounted for, and either its question is
posted, or the channel stays as it is and it is past posting. -/
theorem accounted_step {own : Own} {r : Asker L × List ℕ} (h : s.Accounted i a)
    (hstep : s.step i a own = some r) (htimely : own = .expire → drawnInTime a = true) :
    r.1.stage ≠ .posting ∧ (r.2 = s.asks ∧ s.Accounted i r.1 ∨
      a.stage = .posting ∧ s.phase ≠ .gone ∧ s.asks.length < asksCapacity ∧
        r = ({ a with stage := .posted }, s.asks ++ [i])) := by
  cases own with
  | send =>
    rw [step] at hstep
    split_ifs at hstep with hstage hgone hroom
    · obtain rfl := Option.some.inj hstep
      exact ⟨by simp [Asker.give], Or.inl ⟨rfl, h.give (Or.inr ⟨rfl, Or.inl (Or.inr hgone)⟩)⟩⟩
    · obtain rfl := Option.some.inj hstep
      exact ⟨by simp, Or.inr ⟨hstage, hgone, hroom, rfl⟩⟩
  | wait =>
    rw [step] at hstep
    split_ifs at hstep with hstage
    obtain rfl := Option.some.inj hstep
    exact ⟨by simp, Or.inl ⟨rfl, h.wait hstage⟩⟩
  | receive =>
    rw [step] at hstep
    split at hstep
    · rename_i since given hstage hslot
      obtain rfl := Option.some.inj hstep
      exact ⟨by simp [Asker.give], Or.inl ⟨rfl, h.give (Or.inl (h.slot given hslot))⟩⟩
    · cases hstep
  | expire =>
    rw [step] at hstep
    split at hstep
    · rename_i since hstage hslot
      split_ifs at hstep with hexpired
      obtain rfl := Option.some.inj hstep
      obtain ⟨drawn, hdrawn, hle⟩ := exists_drawn (htimely rfl) hstage
      exact ⟨by simp [Asker.give], Or.inl ⟨rfl, h.give (Or.inr ⟨rfl, Or.inr ⟨drawn, hdrawn,
        (Nat.add_le_add_right hle _).trans hexpired.2⟩⟩)⟩⟩
    · cases hstep
  | disconnect =>
    rw [step] at hstep
    split at hstep
    · rename_i since hstage hslot
      split_ifs at hstep with hholds
      obtain rfl := Option.some.inj hstep
      have hgone : s.Gone := (h.held (Or.inr ⟨since, hstage⟩) hslot).resolve_left hholds
      exact ⟨by simp [Asker.give], Or.inl ⟨rfl, h.give (Or.inr ⟨rfl, Or.inl hgone⟩)⟩⟩
    · cases hstep

/-! ### What is kept up -/

/-- An asker among those of whom one has changed. -/
theorem getElem?_set_of {l : List (Asker L)} {b : Asker L} (ha : l[i]? = some a) :
    (l.set i b)[j]? = if i = j then some b else l[j]? := by
  obtain ⟨hi, -⟩ := List.getElem?_eq_some_iff.mp ha
  rw [List.getElem?_set]
  split_ifs <;> rfl

/-- How many are in `send`, where one has changed who is not any more. -/
theorem posting_set {b : Asker L} (ha : s.askers[i]? = some a) (hb : b.stage ≠ .posting) :
    ({ s with askers := s.askers.set i b } : Window L).posting =
      s.posting - if a.stage = .posting then 1 else 0 := by
  obtain ⟨hi, rfl⟩ := List.getElem?_eq_some_iff.mp ha
  simp [posting, List.countP_set, hi, hb]

theorem posting_pos (ha : s.askers[i]? = some a) (hstage : a.stage = .posting) : 0 < s.posting :=
  List.countP_pos_iff.mpr ⟨a, List.mem_of_getElem? ha, by simp [hstage]⟩

theorem Sound.own {own : Own} (h : Sound s) (ha : s.askers[i]? = some a) {r : Asker L × List ℕ}
    (hstep : s.step i a own = some r) (htimely : own = .expire → drawnInTime a = true) :
    Sound { s with askers := s.askers.set i r.1, asks := r.2 } := by
  obtain ⟨hstage, ⟨hasks, hown⟩ | ⟨hposting, hgone, hroom, rfl⟩⟩ :=
    accounted_step (h.askers i a ha) hstep htimely
  · rw [hasks]
    refine ⟨fun j b hb => ?_, h.nodup, h.notMem, fun j hj => ?_, h.room.imp id fun hroom => ?_,
      h.closed, fun hstarting => ?_⟩
    · rw [getElem?_set_of ha] at hb
      split_ifs at hb with hij
      · obtain rfl := Option.some.inj hb
        subst hij
        exact hown.mono id id id id le_rfl
      · exact (h.askers j b hb).mono id id id id le_rfl
    · rw [List.length_set]
      exact h.bound j hj
    · have hle := (Nat.add_le_add_left (Nat.sub_le s.posting
        (if a.stage = .posting then 1 else 0)) s.asks.length).trans hroom
      rwa [← posting_set ha hstage] at hle
    · rw [(h.starting hstarting).1] at ha
      simp at ha
  · have hnot : ¬s.Holds i := (h.askers i a ha).posting hposting
    refine ⟨fun j b hb => ?_, ?_, fun j hj => ?_, fun j hj => ?_, Or.inr ?_, h.closed,
      fun hstarting => ?_⟩
    · rw [getElem?_set_of ha] at hb
      split_ifs at hb with hij
      · obtain rfl := Option.some.inj hb
        subst hij
        exact ((h.askers i a ha).post hposting).mono id id id id le_rfl
      · have hback : j ∈ s.asks ++ [i] → j ∈ s.asks := fun hj => by
          simpa [Ne.symm hij] using hj
        exact (h.askers j b hb).mono hback id
          (fun hheld => hheld.imp (fun hholds => hholds.imp (List.mem_append_left _) id) id) id le_rfl
    · exact List.nodup_append.mpr ⟨h.nodup, List.nodup_singleton i, fun x hx y hy hxy => by
        obtain rfl := List.mem_singleton.mp hy
        exact hnot (Or.inl (hxy ▸ hx))⟩
    · intro hmem
      rcases List.mem_append.mp hmem with hmem | hmem
      · exact h.notMem j hj hmem
      · obtain rfl := List.mem_singleton.mp hmem
        exact hnot (Or.inr hj)
    · rw [List.length_set]
      rcases hj with hj | hj
      · rcases List.mem_append.mp hj with hj | hj
        · exact h.bound j (Or.inl hj)
        · obtain rfl := List.mem_singleton.mp hj
          exact (List.getElem?_eq_some_iff.mp ha).1
      · exact h.bound j (Or.inr hj)
    · have hroom := h.room.resolve_left hgone
      have hpos := posting_pos ha hposting
      have hset := posting_set ha hstage
      rw [if_pos hposting] at hset
      refine le_trans (le_of_eq ?_) hroom
      calc (s.asks ++ [i]).length + posting _ = s.asks.length + 1 + (s.posting - 1) := by
            rw [List.length_append, List.length_singleton]
            exact congrArg _ hset
        _ = s.asks.length + s.posting := by omega
    · rw [(h.starting hstarting).1] at ha
      simp at ha

/-- One more is accounted for: it posts its question, or has returned at once. -/
theorem accounted_new (h : Sound s) (ask : Ask L) : s.Accounted s.askers.length
    ⟨ask, if s.closed then .returned ask.onSilence s.clock else .posting, none, none, none⟩ where
  posting _ hholds := absurd (h.bound _ hholds) (lt_irrefl _)
  unseen _ := ⟨rfl, rfl⟩
  shown _ := rfl
  slot given hgiven := by cases hgiven
  held hstage := by
    rcases hstage with hstage | ⟨since, hstage⟩
    · split_ifs at hstage
    · split_ifs at hstage
  since_le since hstage := by split_ifs at hstage
  returned given time hstage := by
    split_ifs at hstage with hclosed
    obtain ⟨rfl, -⟩ := Stage.returned.inj hstage
    exact Or.inr ⟨rfl, Or.inl (h.closed hclosed)⟩

/-- A question is asked. -/
theorem Sound.askWindow {ask : Ask L} (h : Sound s) (hroom : s.closed = true ∨ s.phase = .gone ∨
    s.asks.length + s.posting < asksCapacity) (hphase : s.phase ≠ .starting) :
    Sound (s.askWindow ask) := by
  refine ⟨fun j b hb => ?_, h.nodup, h.notMem, fun j hj => ?_, ?_, h.closed,
    fun hstarting => absurd hstarting hphase⟩
  · rw [Window.askWindow] at hb
    rcases lt_or_ge j s.askers.length with hj | hj
    · rw [List.getElem?_append_left hj] at hb
      exact (h.askers j b hb).mono id id id id le_rfl
    · rw [List.getElem?_append_right hj, List.getElem?_singleton] at hb
      obtain ⟨hzero, hnew⟩ := (Option.ite_none_right_eq_some).mp hb
      obtain rfl := Option.some.inj hnew
      obtain rfl : j = s.askers.length := by omega
      exact (accounted_new h ask).mono id id id id le_rfl
  · rw [Window.askWindow, List.length_append]
    exact (h.bound j hj).trans (Nat.lt_succ_self _)
  · have hcount : (s.askWindow ask).posting = s.posting + if s.closed then 0 else 1 := by
      rw [posting, Window.askWindow, List.countP_append, ← posting]
      cases s.closed <;> simp
    rcases hroom with hclosed | hgone | hroom
    · rw [hcount, if_pos hclosed]
      exact h.room
    · exact Or.inl hgone
    · refine Or.inr ?_
      change s.asks.length + _ ≤ _
      rw [hcount]
      split_ifs <;> omega

/-- `main` goes on, or the window opens. -/
theorem Sound.goto {p : Phase} (h : Sound s) (hnot : ¬s.Gone) (hp : p ≠ .starting) :
    Sound { s with phase := p } where
  askers j b hb := (h.askers j b hb).mono id id (fun hheld => Or.inl (hheld.resolve_right hnot))
    (fun hgone => absurd hgone hnot) le_rfl
  nodup := h.nodup
  notMem := h.notMem
  bound := h.bound
  room := Or.inr (h.room.resolve_left fun hgone => hnot (Or.inr hgone))
  closed hclosed := absurd (h.closed hclosed) hnot
  starting hstarting := absurd hstarting hp

theorem Sound.exit (h : Sound s) (hphase : s.phase = .drawing) :
    Sound { s with phase := .closing, closed := true } where
  askers j b hb := (h.askers j b hb).mono id id (fun _ => Or.inr (Or.inl rfl))
    (fun _ => Or.inl rfl) le_rfl
  nodup := h.nodup
  notMem := h.notMem
  bound := h.bound
  room := Or.inr (h.room.resolve_left (by rw [hphase]; simp))
  closed _ := Or.inl rfl
  starting hstarting := by cases hstarting

theorem Sound.tick (h : Sound s) (n : ℕ) : Sound { s with clock := s.clock + n } where
  askers j b hb := (h.askers j b hb).mono id id id id (Nat.le_add_right _ _)
  nodup := h.nodup
  notMem := h.notMem
  bound := h.bound
  room := h.room
  closed := h.closed
  starting := h.starting

theorem Sound.dropped (h : Sound s) : Sound s.dropped where
  askers j b hb := (h.askers j b hb).mono (fun hj => absurd hj List.not_mem_nil)
    (fun hj => absurd hj (by simp [Window.dropped])) (fun _ => Or.inr (Or.inr rfl))
    (fun _ => Or.inr rfl) le_rfl
  nodup := List.nodup_nil
  notMem j hj := List.not_mem_nil
  bound j hj := by simp [Holds, Window.dropped] at hj
  room := Or.inl rfl
  closed _ := Or.inr rfl
  starting hstarting := absurd hstarting (by simp [Window.dropped])

/-- Where one asker changes, but not how far it has come, as many are in `send`. -/
theorem posting_modify {l : List (Asker L)} {f : Asker L → Asker L}
    (hf : ∀ a, (f a).stage = a.stage) :
    (l.modify i f).countP (fun a => a.stage = .posting) = l.countP fun a => a.stage = .posting := by
  induction l generalizing i with
  | nil => rw [List.modify_nil]
  | cons a l ih =>
    cases i with
    | zero => simp only [List.modify_zero_cons, List.countP_cons, hf]
    | succ i => simp only [List.modify_succ_cons, List.countP_cons, ih]

/-- The window changes one asker, and what it holds. -/
theorem Sound.modify {f : Asker L → Asker L} {asks : List ℕ} {modal : Option ℕ} (h : Sound s)
    (hf : ∀ a, (f a).stage = a.stage) (hasks : asks <:+ s.asks)
    (hmodal : ∀ j, modal = some j → s.Holds j ∧ j ∉ asks)
    (hother : ∀ j, j ≠ i → s.Holds j → j ∈ asks ∨ modal = some j)
    (hfirst : ∀ j, j ≠ i → modal = some j → s.modal = some j)
    (hself : ∀ a, s.askers[i]? = some a →
      ({ s with asks := asks, modal := modal } : Window L).Accounted i (f a)) :
    Sound { s with asks := asks, modal := modal, askers := s.askers.modify i f } := by
  refine ⟨fun j b hb => ?_, hasks.sublist.nodup h.nodup, fun j hj => (hmodal j hj).2, fun j hj => ?_,
    h.room.imp id fun hroom => ?_, h.closed, fun hstarting => ?_⟩
  · rw [List.getElem?_modify] at hb
    obtain ⟨a, ha, rfl⟩ := Option.map_eq_some_iff.mp hb
    split_ifs with hij
    · subst hij
      exact (hself a ha).mono id id id id le_rfl
    · have hne : j ≠ i := Ne.symm hij
      exact (h.askers j a ha).mono (fun hj => hasks.subset hj) (hfirst j hne)
        (fun hheld => hheld.imp (hother j hne) id) id le_rfl
  · rw [List.length_modify]
    rcases hj with hj | hj
    · exact h.bound j (Or.inl (hasks.subset hj))
    · exact h.bound j (hmodal j hj).1
  · refine le_trans (Nat.add_le_add hasks.length_le (le_of_eq ?_)) hroom
    exact posting_modify hf
  · obtain ⟨haskers, hnone⟩ := h.starting hstarting
    refine ⟨?_, List.suffix_nil.mp (hnone ▸ hasks)⟩
    change s.askers.modify i f = []
    rw [haskers, List.modify_nil]

/-- **A question is drawn.** -/
theorem Sound.drain (h : Sound s) : Sound s.drain := by
  rw [Window.drain]
  split
  · rename_i i rest hmodal hasks
    have hmem : i ∈ s.asks := hasks ▸ List.mem_cons_self
    have hnodup : i ∉ rest := (List.nodup_cons.mp (hasks ▸ h.nodup)).1
    refine h.modify (fun _ => rfl) (hasks ▸ List.suffix_cons i rest) (fun j hj => ?_)
      (fun j hne hj => Or.inl ?_) (fun j hne hj => absurd (Option.some.inj hj).symm hne)
      fun a ha => ?_
    · obtain rfl := Option.some.inj hj
      exact ⟨Or.inl hmem, hnodup⟩
    · rcases hj with hj | hj
      · rw [hasks] at hj
        exact (List.mem_cons.mp hj).resolve_left hne
      · rw [hmodal] at hj
        cases hj
    · have hi := h.askers i a ha
      obtain ⟨hdrawn, hsaid⟩ := hi.unseen (Or.inr hmem)
      refine ⟨fun hstage => absurd (Or.inl hmem) (hi.posting hstage), fun hunseen => ?_,
        fun _ => hsaid, hi.slot, fun _ _ => Or.inl (Or.inr rfl), hi.since_le,
        fun given time hstage => (hi.returned given time hstage).imp id fun hrefused => ?_⟩
      · rcases hunseen with hstage | hrest
        · exact absurd (Or.inl hmem) (hi.posting hstage)
        · exact absurd hrest hnodup
      · refine ⟨hrefused.1, Or.inl (hrefused.2.resolve_right ?_)⟩
        rintro ⟨time, htime, -⟩
        rw [hdrawn] at htime
        cases htime
  · exact h

/-- **The person has said something**, in the dialog of an asker. -/
theorem Sound.answer {given : Given} (h : Sound s) (hmodal : s.modal = some i) :
    Sound (s.answer i given) := by
  have hnot : i ∉ s.asks := h.notMem i hmodal
  refine h.modify (fun a => ?_) (List.suffix_refl _) (fun j hj => by cases hj)
    (fun j hne hj => Or.inl ?_) (fun j _ hj => by cases hj) fun a ha => ?_
  · split <;> rfl
  · refine hj.resolve_right fun hj => hne ?_
    rw [hmodal] at hj
    exact (Option.some.inj hj).symm
  · have hi := h.askers i a ha
    have hsaid : a.said = none := hi.shown hmodal
    have hposting : a.stage ≠ .posting := fun hstage => hi.posting hstage (Or.inr hmodal)
    split
    · rename_i given' time hreturned
      refine ⟨fun hstage => absurd hstage hposting, fun hunseen => ?_, fun hj => (by cases hj),
        fun g hg => ?_, fun hstage => ?_, fun since hsince => ?_, fun g t hg => ?_⟩
      · exact absurd hunseen (not_or.mpr ⟨hposting, hnot⟩)
      · have := hi.slot g hg
        rw [hsaid] at this
        cases this
      · rw [hreturned] at hstage
        rcases hstage with hstage | ⟨since, hstage⟩
        · cases hstage
        · cases hstage
      · exact hi.since_le since hsince
      · refine Or.inr ((hi.returned g t hg).resolve_left ?_)
        rw [hsaid]
        simp
    · refine ⟨fun hstage => absurd hstage hposting, fun hunseen => ?_, fun hj => (by cases hj),
        fun g hg => hg, fun _ hslot => (by cases hslot), fun since hsince => hi.since_le since hsince,
        fun g t hg => ?_⟩
      · exact absurd hunseen (not_or.mpr ⟨hposting, hnot⟩)
      · rename_i hreturned
        exact absurd hg (hreturned g t)

theorem Sound.unseal (h : Sound s) (hphase : s.phase = .starting)
    (initialized passphraseRequired : Bool) : Sound (s.unseal initialized passphraseRequired) := by
  have hnot : ¬s.Gone := by simp [Gone, hphase]
  have hbegun : Sound { s with phase := .unsealing } := h.goto hnot (by simp)
  obtain ⟨haskers, hasks⟩ := h.starting hphase
  rw [Window.unseal]
  split_ifs
  · exact h.goto hnot (by simp)
  · exact hbegun.askWindow (Or.inr (Or.inr (by simp [hasks, posting, haskers, asksCapacity])))
      (by simp)
  · exact hbegun

/-- **Everything that happens in time keeps the invariant.** -/
theorem Sound.after (h : Sound s) (htimely : s.Timely e) (hafter : s.after e = some s') :
    Sound s' := by
  cases e with
  | status initialized passphraseRequired =>
    obtain ⟨hphase, hs'⟩ := Option.ite_none_right_eq_some.mp hafter
    obtain rfl := Option.some.inj hs'
    exact h.unseal hphase _ _
  | «unseal» ok =>
    obtain ⟨⟨hphase, -⟩, hs'⟩ := Option.ite_none_right_eq_some.mp hafter
    obtain rfl := Option.some.inj hs'
    refine h.goto (by simp [Gone, hphase]) ?_
    split_ifs <;> simp
  | opens ok =>
    obtain ⟨hphase, hs'⟩ := Option.ite_none_right_eq_some.mp hafter
    obtain rfl := Option.some.inj hs'
    split_ifs
    · exact h.goto (by simp [Gone, hphase]) (by simp)
    · exact h.dropped
  | ask ask =>
    obtain ⟨hphase, hs'⟩ := Option.ite_none_right_eq_some.mp hafter
    obtain rfl := Option.some.inj hs'
    refine h.askWindow htimely fun hstarting => ?_
    rw [hstarting] at hphase
    simp at hphase
  | own i own =>
    obtain ⟨a, ha, hs'⟩ := Option.bind_eq_some_iff.mp hafter
    obtain ⟨r, hr, hs'⟩ := Option.bind_eq_some_iff.mp hs'
    obtain rfl := Option.some.inj hs'
    refine h.own ha hr fun hexpire => ?_
    subst hexpire
    simpa [Timely, ha] using htimely
  | frame =>
    obtain ⟨-, hs'⟩ := Option.ite_none_right_eq_some.mp hafter
    obtain rfl := Option.some.inj hs'
    exact h.drain
  | click given =>
    obtain ⟨i, hmodal, hs'⟩ := Option.bind_eq_some_iff.mp hafter
    obtain ⟨a, -, hs'⟩ := Option.bind_eq_some_iff.mp hs'
    obtain ⟨-, hs'⟩ := Option.ite_none_right_eq_some.mp hs'
    obtain rfl := Option.some.inj hs'
    exact h.answer hmodal
  | exit =>
    obtain ⟨hphase, hs'⟩ := Option.ite_none_right_eq_some.mp hafter
    obtain rfl := Option.some.inj hs'
    exact h.exit hphase
  | drop =>
    obtain ⟨-, hs'⟩ := Option.ite_none_right_eq_some.mp hafter
    obtain rfl := Option.some.inj hs'
    exact h.dropped
  | tick n =>
    obtain rfl := Option.some.inj hafter
    exact h.tick n

theorem sound_of_runs {clock : ℕ} {events : List (Event L)}
    (h : Runs StepTimely (start clock) events s) : Sound s :=
  h.invariant (fun _ _ _ hs hstep => hs.after hstep.1 hstep.2) (sound_start clock)

/-! ### One answer -/

theorem getElem?_askWindow {ask : Ask L} (ha : s.askers[i]? = some a) :
    (s.askWindow ask).askers[i]? = some a := by
  rw [askWindow, List.getElem?_append_left (List.getElem?_eq_some_iff.mp ha).1]
  exact ha

/-- What the window does with an asker leaves it as far as it has come. -/
theorem exists_modify {f : Asker L → Asker L} (hf : ∀ a, (f a).stage = a.stage)
    (ha : s.askers[i]? = some a) :
    ∃ b, (s.askers.modify j f)[i]? = some b ∧ b.stage = a.stage := by
  rw [List.getElem?_modify, ha]
  split_ifs
  · exact ⟨f a, rfl, hf a⟩
  · exact ⟨a, rfl, rfl⟩

theorem step_eq_none {given : Given} {time : ℕ} (ha : a.stage = .returned given time) (own : Own) :
    s.step i a own = none := by
  cases own <;> simp [step, ha]

/-- **Who has returned has returned.** -/
theorem exists_returned (hstep : Step s e s') (ha : s.askers[i]? = some a) {given : Given} {time : ℕ}
    (hreturned : a.stage = .returned given time) :
    ∃ b, s'.askers[i]? = some b ∧ b.stage = .returned given time := by
  obtain ⟨-, hafter⟩ := hstep
  rw [← hreturned]
  cases e with
  | status initialized passphraseRequired =>
    obtain ⟨-, hs'⟩ := Option.ite_none_right_eq_some.mp hafter
    obtain rfl := Option.some.inj hs'
    rw [Window.unseal]
    split_ifs
    · exact ⟨a, ha, rfl⟩
    · exact ⟨a, getElem?_askWindow ha, rfl⟩
    · exact ⟨a, ha, rfl⟩
  | «unseal» ok =>
    obtain ⟨-, hs'⟩ := Option.ite_none_right_eq_some.mp hafter
    obtain rfl := Option.some.inj hs'
    exact ⟨a, ha, rfl⟩
  | opens ok =>
    obtain ⟨-, hs'⟩ := Option.ite_none_right_eq_some.mp hafter
    obtain rfl := Option.some.inj hs'
    split_ifs <;> exact ⟨a, ha, rfl⟩
  | ask ask =>
    obtain ⟨-, hs'⟩ := Option.ite_none_right_eq_some.mp hafter
    obtain rfl := Option.some.inj hs'
    exact ⟨a, getElem?_askWindow ha, rfl⟩
  | own j own =>
    obtain ⟨b, hb, hs'⟩ := Option.bind_eq_some_iff.mp hafter
    obtain ⟨r, hr, hs'⟩ := Option.bind_eq_some_iff.mp hs'
    obtain rfl := Option.some.inj hs'
    rw [getElem?_set_of hb]
    split_ifs with hij
    · subst hij
      obtain rfl := Option.some.inj (ha.symm.trans hb)
      rw [step_eq_none hreturned] at hr
      cases hr
    · exact ⟨a, ha, rfl⟩
  | frame =>
    obtain ⟨-, hs'⟩ := Option.ite_none_right_eq_some.mp hafter
    obtain rfl := Option.some.inj hs'
    rw [Window.drain]
    split
    · exact exists_modify (fun _ => rfl) ha
    · exact ⟨a, ha, rfl⟩
  | click given =>
    obtain ⟨j, -, hs'⟩ := Option.bind_eq_some_iff.mp hafter
    obtain ⟨b, -, hs'⟩ := Option.bind_eq_some_iff.mp hs'
    obtain ⟨-, hs'⟩ := Option.ite_none_right_eq_some.mp hs'
    obtain rfl := Option.some.inj hs'
    refine exists_modify (fun b => ?_) ha
    split <;> rfl
  | exit =>
    obtain ⟨-, hs'⟩ := Option.ite_none_right_eq_some.mp hafter
    obtain rfl := Option.some.inj hs'
    exact ⟨a, ha, rfl⟩
  | drop =>
    obtain ⟨-, hs'⟩ := Option.ite_none_right_eq_some.mp hafter
    obtain rfl := Option.some.inj hs'
    exact ⟨a, ha, rfl⟩
  | tick n =>
    obtain rfl := Option.some.inj hafter
    exact ⟨a, ha, rfl⟩

/-! ### An answer -/

/-- A step of the asker, or of the clock. -/
def IsOwn (i : ℕ) : Event L → Prop
  | .own j _ => j = i
  | .tick _ => True
  | _ => False

/-- **An asker can get its answer by itself**, no later than this. -/
def Returns (s : Window L) (i : ℕ) (deadline : ℕ) : Prop :=
  ∃ events s' a given time, (∀ e ∈ events, IsOwn i e) ∧ Runs Step s events s' ∧
    s'.askers[i]? = some a ∧ a.stage = .returned given time ∧ time ≤ deadline

theorem Returns.of_step {deadline : ℕ} (hown : IsOwn i e) (hafter : s.after e = some s')
    (h : s'.Returns i deadline) : s.Returns i deadline := by
  obtain ⟨events, s'', a, given, time, hevents, hruns, ha, hstage, hle⟩ := h
  exact ⟨e :: events, s'', a, given, time, List.forall_mem_cons.mpr ⟨hown, hevents⟩,
    .cons ⟨trivial, hafter⟩ hruns, ha, hstage, hle⟩

theorem getElem?_set_self {b : Asker L} (ha : s.askers[i]? = some a) :
    (s.askers.set i b)[i]? = some b := by
  rw [getElem?_set_of ha, if_pos rfl]

/-- The asker takes a step. -/
theorem Returns.of_own {own : Own} {r : Asker L × List ℕ} {deadline : ℕ}
    (ha : s.askers[i]? = some a) (hr : s.step i a own = some r)
    (h : ({ s with askers := s.askers.set i r.1, asks := r.2 } : Window L).Returns i deadline) :
    s.Returns i deadline := by
  have hafter : s.after (.own i own) =
      some { s with askers := s.askers.set i r.1, asks := r.2 } := by
    simp only [Window.after, ha, hr, Option.bind_eq_bind, Option.bind_some]
  have hown : IsOwn i (.own i own : Event L) := rfl
  exact .of_step hown hafter h

/-- The asker takes its last step. -/
theorem returns_of_give {own : Own} {given : Given} {asks : List ℕ} {deadline : ℕ}
    (ha : s.askers[i]? = some a) (hr : s.step i a own = some (a.give given s.clock, asks))
    (hclock : s.clock ≤ deadline) : s.Returns i deadline :=
  .of_own ha hr ⟨[], _, _, given, s.clock, by simp, .nil _, getElem?_set_self ha, rfl, hclock⟩

/-- Who waits has an answer, or nobody to answer it, or can wait for as long as it takes. -/
theorem returns_of_waiting {since : ℕ} (h : Sound s) (ha : s.askers[i]? = some a)
    (hstage : a.stage = .waiting since) : s.Returns i (s.clock + patience) := by
  rcases hslot : a.slot with _ | given
  · by_cases hholds : s.Holds i
    · have hsince := (h.askers i a ha).since_le since hstage
      have hstep : ({ s with clock := s.clock + patience } : Window L).step i a .expire =
          some (a.give a.ask.onSilence (s.clock + patience), s.asks) := by
        simp only [step, hstage, hslot]
        exact if_pos ⟨hholds, Nat.add_le_add_right hsince _⟩
      have htick : IsOwn i (.tick patience : Event L) := trivial
      exact .of_step htick rfl (returns_of_give ha hstep le_rfl)
    · have hstep : s.step i a .disconnect = some (a.give a.ask.onSilence s.clock, s.asks) := by
        simp only [step, hstage, hslot]
        exact if_neg hholds
      exact returns_of_give ha hstep (Nat.le_add_right _ _)
  · have hstep : s.step i a .receive = some (a.give given s.clock, s.asks) := by
      simp only [step, hstage, hslot]
    exact returns_of_give ha hstep (Nat.le_add_right _ _)

theorem returns_of_posted (h : Sound s) (ha : s.askers[i]? = some a) (hstage : a.stage = .posted) :
    s.Returns i (s.clock + patience) := by
  have hstep : s.step i a .wait = some ({ a with stage := .waiting s.clock }, s.asks) := by
    simp only [step, hstage, if_true]
  have hnext := h.own ha hstep (fun hown => by cases hown)
  exact .of_own ha hstep (returns_of_waiting hnext (getElem?_set_self ha) rfl)

/-- **Every asker can go on by itself until it has its answer.** -/
theorem returns_of_sound (h : Sound s) (ha : s.askers[i]? = some a)
    (hunanswered : ∀ given time, a.stage ≠ .returned given time) :
    s.Returns i (s.clock + patience) := by
  cases hstage : a.stage with
  | posting =>
    by_cases hgone : s.phase = .gone
    · have hstep : s.step i a .send = some (a.give a.ask.onSilence s.clock, s.asks) := by
        simp only [step, hstage, hgone, if_true]
      exact returns_of_give ha hstep (Nat.le_add_right _ _)
    · have hroom := h.room.resolve_left hgone
      have hpos := posting_pos ha hstage
      have hstep : s.step i a .send = some ({ a with stage := .posted }, s.asks ++ [i]) := by
        simp only [step, hstage, if_true, if_neg hgone]
        exact if_pos (by omega)
      have hnext := h.own ha hstep (fun hown => by cases hown)
      exact .of_own ha hstep (returns_of_posted hnext (getElem?_set_self ha) rfl)
  | posted => exact returns_of_posted h ha hstage
  | waiting since => exact returns_of_waiting h ha hstage
  | returned given time => exact absurd hstage (hunanswered given time)

end Window

/-! ### Answered -/

open Window

/-- **An asker is answered by its own person**: what it has got it keeps, and while it
has got nothing it can get an answer by itself; a decision or a passphrase is what the
person gave in its dialog, and a refusal is that as well, or the window was closed, or
the question had been drawn for as long as an asker waits. -/
structure AnsweredByItsOwn (s : Window L) (i : ℕ) (a : Asker L) : Prop where
  once : ∀ given time, a.stage = .returned given time → ∀ e s', Step s e s' →
    ∃ b, s'.askers[i]? = some b ∧ b.stage = .returned given time
  answered : (∀ given time, a.stage ≠ .returned given time) → s.Returns i (s.clock + patience)
  given : ∀ given time, a.stage = .returned given time → given ≠ a.ask.onSilence →
    a.said = some given
  refused : ∀ given time, a.stage = .returned given time → given = a.ask.onSilence →
    a.said = some given ∨ s.Gone ∨ ∃ drawn ∈ a.drawn, drawn + patience ≤ time

instance (s : Window L) (e : Event L) : Decidable (s.Timely e) := by
  unfold Timely
  split <;> infer_instance

/-- The asker at this place has returned with this. -/
def returnedWith (s : Window L) (i : ℕ) (given : Given) : Bool :=
  s.askers[i]?.any fun a => match a.stage with
    | .returned given' _ => given' = given
    | _ => false

theorem exists_asker {s : Window L} {i : ℕ} {given : Given} (h : returnedWith s i given = true) :
    ∃ a time, s.askers[i]? = some a ∧ a.stage = .returned given time := by
  obtain ⟨a, ha, hstage⟩ := (Option.any_eq_true _ _).mp h
  split at hstage
  · rename_i given' time hreturned
    obtain rfl : given' = given := of_decide_eq_true hstage
    exact ⟨a, time, ha, hreturned⟩
  · cases hstage

/-- One question is answered, the next one runs out on the screen, and one more is asked
when the window is closed. -/
def twoQuestions : List (Event sampleLibraries) :=
  [.status true false, .unseal true, .ask (.confirm "Send?" ""), .own 0 .send, .opens true, .frame,
    .own 0 .wait, .click (.decision .yes), .own 0 .receive, .ask (.passphrase "Passphrase"),
    .own 1 .send, .frame, .own 1 .wait, .tick patience, .own 1 .expire, .exit,
    .ask (.confirm "Again?" "")]

/-- A keystore that needs a passphrase, and nothing else for as long as an asker waits. -/
def needsPassphrase : List (Event sampleLibraries) :=
  [.status true true, .own 0 .send, .own 0 .wait, .tick patience, .own 0 .expire]

/-- There is no window yet, and the first question has been refused unseen. -/
def refusedUnseen (s : Window sampleLibraries) : Bool :=
  s.phase = .unsealing && returnedWith s 0 (.passphrase none) &&
    s.askers.all fun a => a.ask.onSilence = .passphrase none ∧ a.said = none ∧ a.drawn = none

/-- **The passphrase is refused before there is a window to give it in.** -/
theorem passphrase_refused_unseen : ¬∀ (L : Libraries) (clock : ℕ) (events : List (Event L))
    (s : Window L), Runs Step (start clock) events s →
      ∀ i a, s.askers[i]? = some a → AnsweredByItsOwn s i a := by
  intro h
  obtain ⟨s, hruns, hends⟩ : ∃ s : Window sampleLibraries,
      Runs Step (start 0) needsPassphrase s ∧ refusedUnseen s = true :=
    exists_runs_of_follow (by decide +kernel)
  rw [refusedUnseen, Bool.and_eq_true, Bool.and_eq_true, decide_eq_true_eq] at hends
  obtain ⟨⟨hphase, hreturned⟩, hunseen⟩ := hends
  obtain ⟨a, time, ha, hstage⟩ := exists_asker hreturned
  obtain ⟨hsilence, hsaid, hdrawn⟩ :=
    of_decide_eq_true (List.all_eq_true.mp hunseen a (List.mem_of_getElem? ha))
  rcases (h _ _ _ s hruns 0 a ha).refused _ time hstage hsilence.symm with
    hsame | hgone | ⟨drawn, hsome, -⟩
  · rw [hsaid] at hsame
    cases hsame
  · rcases hgone with hgone | hgone <;> rw [hphase] at hgone <;> cases hgone
  · rw [hdrawn] at hsome
    cases hsome

end Ui

end Syndeo
