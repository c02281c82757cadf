import Syndeo.Dom.Lookahead

/-!
# Parsing within a budget

A page is parsed against a budget of work units (`Syndeo.Dom.parse`). The
look-ahead says where the next tag is and how many attributes it has; the
tokenizer is given what comes before it, and then the tag, if the square of that
number is affordable; and when the budget is spent the rest of the page is not
parsed.

The tokenizer and the tree it builds are a parameter: any states, and any work
charged to the meter while a slice is read. Whatever they do, the loop ends, every
slice it takes of the page is there to be taken, and
the slices are the beginning of the page in order
(`Syndeo.Dom.parse_bounded`).

One thing is not so. The cut is where parsing is known to have been complete,
while the slice that spent the budget has already been handed over: it begins at
the cut and ends past it (`Syndeo.Dom.handed_past_cut`).
-/

namespace Syndeo.Dom

open Utf8 (size slice takeBytes IsBoundary)

/-! ### The meter -/

/-- The greatest number of units, which is also the greatest offset. -/
def unitsMax : ℕ := 2 ^ 64 - 1

/-- What the tokenizer's duplicate check costs for a tag: each attribute is
compared with those before it. -/
def attributeCost (attributes : ℕ) : ℕ :=
  min (attributes * (attributes - 1)) unitsMax / 2 + attributes

/-- The work done so far, against the budget. -/
structure Meter where
  budget : ℕ
  charged : ℕ
  refused : Bool
  deriving DecidableEq, Repr

namespace Meter

def new (budget : ℕ) : Meter := ⟨budget, 0, false⟩

/-- Work about to be done, if the budget allows it; if not, nothing is charged and
the budget is spent from here on. -/
def afford (m : Meter) (units : ℕ) : Meter × Bool :=
  let charged := min (m.charged + units) unitsMax
  if m.budget < charged ∨ m.refused then ({ m with refused := true }, false)
  else ({ m with charged }, true)

/-- Work that is being done whatever the budget says. -/
def charge (m : Meter) (units : ℕ) : Meter :=
  { m with charged := min (m.charged + units) unitsMax }

def spent (m : Meter) : Bool := m.refused || m.budget < m.charged

/-- Units left before the budget is spent. -/
def remaining (m : Meter) : ℕ := if m.refused then 0 else m.budget - m.charged

end Meter

/-! ### The tokenizer -/

/-- One piece of work charged while the tokenizer runs. -/
inductive Work
  | charge (units : ℕ)
  | afford (units : ℕ)

def Meter.work (m : Meter) : Work → Meter
  | .charge units => m.charge units
  | .afford units => (m.afford units).1

def Meter.works (m : Meter) (ws : List Work) : Meter := ws.foldl Meter.work m

/-- The tokenizer, with the gate and the tree behind it, as far as the loop sees
them: what it charges may depend on the meter it finds. -/
structure Tokenizer (σ : Type) where
  /-- Whether the adjusted current node is in foreign content. -/
  «foreign» : σ → Bool
  /-- Reading a slice to its end. -/
  feed : σ → Meter → List Char → σ × List Work
  /-- Taking what the tree builder did with the last tag. -/
  takeLastTag : σ → Option Emitted × σ
  /-- The end of the input. -/
  finish : σ → Meter → σ × List Work

/-! ### The loop -/

/-- A slice handed to the tokenizer: of a tag, with the number of its attributes,
or of what is before one; with the units left when it was reached, and whether the
budget was spent once it had been read. -/
structure Handed where
  start : ℕ
  stop : ℕ
  text : List Char
  tag : Option ℕ
  left : ℕ
  spent : Bool
  deriving DecidableEq, Repr

/-- Where the loop stands. Everything before `parsed` has been parsed in full; the
tokenizer has been given everything before `given`. -/
structure Parsing (σ : Type) where
  tokenizer : σ
  meter : Meter
  ahead : Lookahead
  parsed : ℕ
  given : ℕ
  cutAt : Option ℕ
  handed : List Handed

/-- A page, parsed as far as its budget allowed: where parsing stopped, if it
stopped early, how far the tokenizer was fed and the look-ahead read, and every
slice that was handed over. -/
structure Parsed (σ : Type) where
  dom : σ
  cutAt : Option ℕ
  fed : ℕ
  scanned : ℕ
  charged : ℕ
  handed : List Handed

namespace Parsing

variable {σ : Type} (T : Tokenizer σ) (html : List Char)

def new (t : σ) (budget : ℕ) : Parsing σ :=
  ⟨t, .new budget, .new html, 0, 0, none, []⟩

/-- Handing over the slice between two offsets, which must be places in the page.
The tokenizer is not called for an empty one. -/
def feed (p : Parsing σ) (start stop : ℕ) (tag : Option ℕ) (left : ℕ) :
    Option (Parsing σ) :=
  (slice html start stop).map fun text =>
    if text = [] then { p with given := stop }
    else
      let fed := T.feed p.tokenizer p.meter text
      let meter := p.meter.works fed.2
      { p with
        tokenizer := fed.1
        meter
        given := stop
        handed := p.handed ++ [⟨start, stop, text, tag, left, meter.spent⟩] }

/-- Stopping where the page was last known to be parsed in full. -/
def cut (p : Parsing σ) : Parsing σ × Bool := ({ p with cutAt := some p.parsed }, false)

/-- The tag the look-ahead found, or what the input ended inside: whether the loop
goes on after it is the last argument. -/
def reach (p : Parsing σ) (start stop attributes : ℕ) (more : Bool) :
    Option (Parsing σ × Bool) :=
  (p.feed T html p.given start none p.meter.remaining).bind fun p =>
    if p.meter.spent then some p.cut
    else
      let p := { p with parsed := start }
      let left := p.meter.remaining
      match p.meter.afford (attributeCost attributes) with
      | (meter, false) => some { p with meter }.cut
      | (meter, true) =>
        (feed T html { p with meter } start stop (some attributes) left).map fun p =>
          if p.meter.spent then p.cut
          else
            let p := { p with parsed := stop }
            if more then
              match T.takeLastTag p.tokenizer with
              | (none, tokenizer) => ({ p with tokenizer }, true)
              | (some emitted, tokenizer) =>
                ({ p with tokenizer, ahead := p.ahead.follow emitted }, true)
            else (p, false)

/-- Charging what the look-ahead has read: every byte is read by it and then by
the tokenizer. -/
def charge (p : Parsing σ) (ahead : Lookahead) : Option (Parsing σ) :=
  if ahead.position < p.ahead.position then none
  else some { p with ahead, meter := p.meter.charge (ahead.position - p.ahead.position) }

/-- Handing over what the look-ahead found. -/
def give (p : Parsing σ) : Scan → Option (Parsing σ × Bool)
  | .tag found => p.reach T html found.start found.stop found.attributes true
  | .ended =>
    p.reach T html (p.ahead.openTagStart.getD (size html)) (size html) p.ahead.attributes false
  | .limit =>
    -- as far as the budget reached, and not into a tag that began before it
    let stop := p.ahead.openTagStart.getD p.ahead.position
    (p.feed T html p.given stop none p.meter.remaining).map fun p =>
      if p.meter.spent then p.cut else ({ p with cutAt := some stop }, false)

/-- One turn of the loop, and whether there is another. -/
def turn (p : Parsing σ) : Option (Parsing σ × Bool) :=
  let ahead := { p.ahead with «foreign» := T.«foreign» p.tokenizer }
  let limit := min (ahead.position + p.meter.remaining) unitsMax
  (ahead.nextTag limit).bind fun scanned =>
    (p.charge scanned.1).bind fun p => p.give T html scanned.2

def loop : ℕ → Parsing σ → Option (Parsing σ)
  | 0, _ => none
  | fuel + 1, p => (p.turn T html).bind fun (p, more) => if more then loop fuel p else some p

end Parsing

/-- Parsing a page, spending at most a budget on it. A failure is a slice that is
not there, an offset below zero, an assertion that does not hold, or a loop that
does not end. -/
def parse {σ : Type} (T : Tokenizer σ) (t : σ) (html : List Char) (budget : ℕ) :
    Option (Parsed σ) :=
  ((Parsing.new html t budget).loop T html (size html + 1)).bind fun p =>
    let ended := T.finish p.tokenizer p.meter
    if p.parsed ≤ p.given ∧ p.given ≤ size html then
      some ⟨ended.1, p.cutAt, p.given, p.ahead.position, (p.meter.works ended.2).charged,
        p.handed⟩
    else none

/-! ### What is handed over -/

/-- Slices that follow one another, from one offset to another. -/
def Consecutive : ℕ → List Handed → ℕ → Prop
  | i, [], j => i = j
  | i, h :: hs, j => h.start = i ∧ Consecutive h.stop hs j

theorem Consecutive.concat {i j : ℕ} {hs : List Handed} {h : Handed}
    (hhs : Consecutive i hs j) (hh : h.start = j) : Consecutive i (hs ++ [h]) h.stop := by
  induction hs generalizing i with
  | nil =>
    obtain rfl : i = j := hhs
    exact ⟨hh, rfl⟩
  | cons h' hs ih => exact ⟨hhs.1, ih hhs.2⟩

/-- What holds of the slices handed over, up to an offset: they are the page as
far as that, one after another, and no tag among them cost more than was left. -/
structure Hands (html : List Char) (budget : ℕ) (hs : List Handed) (given : ℕ) : Prop where
  page : takeBytes html given = some (hs.flatMap Handed.text)
  consecutive : Consecutive 0 hs given
  slices : ∀ h ∈ hs, slice html h.start h.stop = some h.text
  affordable : budget < unitsMax → ∀ h ∈ hs, ∀ n, h.tag = some n → attributeCost n ≤ h.left

theorem hands_nil (html : List Char) (budget : ℕ) : Hands html budget [] 0 := by
  refine ⟨?_, rfl, fun h hh => (nomatch hh), fun _ h hh => (nomatch hh)⟩
  cases html <;> rfl

theorem Hands.isBoundary {html : List Char} {budget given : ℕ} {hs : List Handed}
    (h : Hands html budget hs given) : IsBoundary html given := by
  obtain ⟨t, hpage, hsize⟩ := Utf8.takeBytes_eq_some_iff.mp h.page
  exact ⟨_, t, hpage, hsize⟩

/-- One more slice, from where the last one ended. -/
theorem Hands.concat {html : List Char} {budget given : ℕ} {hs : List Handed} {h : Handed}
    (hhs : Hands html budget hs given) (hstart : h.start = given)
    (hslice : slice html h.start h.stop = some h.text)
    (hcost : budget < unitsMax → ∀ n, h.tag = some n → attributeCost n ≤ h.left) :
    Hands html budget (hs ++ [h]) h.stop := by
  refine ⟨?_, hhs.consecutive.concat hstart, ?_, fun hb => ?_⟩
  · rw [List.flatMap_append, List.flatMap_singleton]
    exact Utf8.takeBytes_append_slice hhs.page (hstart ▸ hslice)
  · intro h' hh'
    rcases List.mem_append.mp hh' with hold | hnew
    · exact hhs.slices h' hold
    · obtain rfl := List.mem_singleton.mp hnew
      exact hslice
  · intro h' hh'
    rcases List.mem_append.mp hh' with hold | hnew
    · exact hhs.affordable hb h' hold
    · obtain rfl := List.mem_singleton.mp hnew
      exact hcost hb

/-- **What is affordable costs no more than is left**, for any budget below the
greatest number of units: at that one a saturated count is never past it. -/
theorem Meter.le_remaining_of_afford {m m' : Meter} {units : ℕ}
    (h : m.afford units = (m', true)) (hb : m.budget < unitsMax) : units ≤ m.remaining := by
  rw [Meter.afford] at h
  split at h
  · cases h
  · rename_i hfits
    rw [not_or, Nat.not_lt] at hfits
    have hle : m.charged + units ≤ m.budget := by
      have := hfits.1
      omega
    rw [Meter.remaining, if_neg hfits.2]
    omega

@[simp] theorem Meter.charge_budget (m : Meter) (units : ℕ) :
    (m.charge units).budget = m.budget := rfl

@[simp] theorem Meter.afford_budget (m : Meter) (units : ℕ) :
    (m.afford units).1.budget = m.budget := by
  rw [Meter.afford]
  split <;> rfl

@[simp] theorem Meter.works_budget (m : Meter) (ws : List Work) :
    (m.works ws).budget = m.budget := by
  induction ws generalizing m with
  | nil => rfl
  | cons w ws ih =>
    have hw : (m.work w).budget = m.budget := by
      cases w
      · rfl
      · exact m.afford_budget _
    exact (ih (m.work w)).trans hw

namespace Parsing

variable {σ : Type} {T : Tokenizer σ} {html : List Char}

/-- The budget is spent, and the last slice handed over begins at an offset. -/
def SpentFrom (p : Parsing σ) (n : ℕ) : Prop :=
  n = p.given ∨ ∃ earlier last, p.handed = earlier ++ [last] ∧ last.start = n ∧ last.spent = true

/-- What feeding a slice does. -/
structure Feeds (html : List Char) (p q : Parsing σ) (stop : ℕ) : Prop where
  hands : Hands html q.meter.budget q.handed q.given
  given : q.given = stop
  ahead : q.ahead = p.ahead
  parsed : q.parsed = p.parsed
  cutAt : q.cutAt = p.cutAt
  budget : q.meter.budget = p.meter.budget
  spent : q.meter.spent = true → q.SpentFrom p.given

theorem exists_feed {p : Parsing σ} (T : Tokenizer σ) {start stop left : ℕ} {tag : Option ℕ}
    (hp : Hands html p.meter.budget p.handed p.given) (hstart : p.given = start)
    (hstop : IsBoundary html stop) (hle : start ≤ stop)
    (htag : p.meter.budget < unitsMax → ∀ n, tag = some n → attributeCost n ≤ left) :
    ∃ q, p.feed T html start stop tag left = some q ∧ Feeds html p q stop := by
  subst hstart
  obtain ⟨text, hslice⟩ := Utf8.exists_slice hp.isBoundary hstop hle
  rw [feed, hslice, Option.map_some]
  refine ⟨_, rfl, ?_⟩
  have hsize := Utf8.size_slice hslice
  split
  · rename_i hempty
    obtain rfl : p.given = stop := by
      rw [hempty] at hsize
      exact hsize
    exact ⟨hp, rfl, rfl, rfl, rfl, rfl, fun _ => Or.inl rfl⟩
  · refine ⟨?_, rfl, rfl, rfl, rfl, Meter.works_budget _ _, fun hspent => Or.inr ?_⟩
    · rw [Meter.works_budget]
      exact hp.concat (h := ⟨_, _, _, _, _, _⟩) rfl hslice htag
    · exact ⟨_, _, rfl, rfl, hspent⟩

/-- What holds when the loop has stopped: nothing was parsed that was not given,
and a page that was not cut was given whole. -/
structure Stopped (html : List Char) (budget : ℕ) (p : Parsing σ) : Prop where
  hands : Hands html budget p.handed p.given
  parsed_le : p.parsed ≤ p.given
  whole : p.cutAt = none → p.given = size html
  cut : ∀ n, p.cutAt = some n → p.SpentFrom n

/-- What holds when the loop turns: everything given is parsed, and the look-ahead
stands there too, with no tag begun. -/
structure Ready (html : List Char) (budget : ℕ) (p : Parsing σ) : Prop where
  hands : Hands html budget p.handed p.given
  budget : p.meter.budget = budget
  parsed : p.parsed = p.given
  cutAt : p.cutAt = none
  input : p.ahead.input = html
  position : p.ahead.position = p.given
  openTagStart : p.ahead.openTagStart = none
  state : readingATag p.ahead.state = false

/-- Cutting where parsing was complete, behind the last slice at most. -/
theorem stopped_cut {budget : ℕ} {p : Parsing σ} (hands : Hands html budget p.handed p.given)
    (hle : p.parsed ≤ p.given) (hspent : p.SpentFrom p.parsed) :
    p.cut.1.Stopped html budget := by
  refine ⟨hands, hle, fun h => (nomatch h), fun n hn => ?_⟩
  obtain rfl := Option.some.inj hn
  exact hspent

/-- What reaching a tag leads to: the loop goes on behind it, or has stopped. -/
def Reached (html : List Char) (budget : ℕ) (p q : Parsing σ) (stop : ℕ) (more again : Bool) :
    Prop :=
  if again then
    more = true ∧ Hands html budget q.handed q.given ∧ q.meter.budget = budget ∧
      q.parsed = q.given ∧ q.given = stop ∧ q.cutAt = p.cutAt ∧
      (q.ahead = p.ahead ∨ ∃ emitted, q.ahead = p.ahead.follow emitted)
  else (more = false → stop = size html) → q.Stopped html budget

theorem exists_reach {budget : ℕ} {p : Parsing σ} (T : Tokenizer σ) {start stop : ℕ}
    (attributes : ℕ) (more : Bool) (hands : Hands html budget p.handed p.given)
    (hbudget : p.meter.budget = budget) (hparsed : p.parsed = p.given) (hcut : p.cutAt = none)
    (hstart : IsBoundary html start) (hstop : IsBoundary html stop) (hle : p.given ≤ start)
    (hle' : start ≤ stop) :
    ∃ q again, p.reach T html start stop attributes more = some (q, again) ∧
      Reached html budget p q stop more again := by
  subst hbudget
  obtain ⟨q, hfeed, hq⟩ : ∃ q, p.feed T html p.given start none p.meter.remaining = some q ∧
      Feeds html p q start := exists_feed T hands rfl hstart hle fun _ _ h => nomatch h
  have hqhands : Hands html p.meter.budget q.handed q.given := hq.budget ▸ hq.hands
  rw [reach, hfeed, Option.bind_some]
  split
  · -- what comes before the tag spent the budget
    rename_i hspent
    refine ⟨_, _, rfl, fun _ => stopped_cut hqhands ?_ ?_⟩
    · rw [hq.parsed, hparsed, hq.given]
      exact hle
    · rw [hq.parsed, hparsed]
      exact hq.spent hspent
  · have hbudget' := q.meter.afford_budget (attributeCost attributes)
    dsimp only
    split
    · -- the tag is not affordable
      rename_i meter hafford
      refine ⟨_, _, rfl, fun _ => stopped_cut hqhands ?_ (Or.inl ?_)⟩
      · exact Nat.le_of_eq hq.given.symm
      · exact hq.given.symm
    · rename_i meter hafford
      rw [hafford] at hbudget'
      have hcost (hb : meter.budget < unitsMax) (n : ℕ) (hn : some attributes = some n) :
          attributeCost n ≤ q.meter.remaining := by
        obtain rfl := Option.some.inj hn
        exact Meter.le_remaining_of_afford hafford (hbudget' ▸ hb)
      have hmeter : meter.budget = p.meter.budget := hbudget'.trans hq.budget
      obtain ⟨r, hfeed', hr⟩ := exists_feed (p := { q with meter, parsed := start }) T
        (hmeter ▸ hqhands) hq.given hstop hle' hcost
      have hrhands : Hands html p.meter.budget r.handed r.given :=
        (hr.budget.trans hmeter) ▸ hr.hands
      have hgiven : q.given = start := hq.given
      rw [hfeed', Option.map_some]
      split
      · rename_i hspent
        refine ⟨_, _, rfl, fun _ => stopped_cut hrhands ?_ ?_⟩
        · rw [hr.parsed, hr.given]
          exact hle'
        · rw [hr.parsed]
          exact hgiven ▸ hr.spent hspent
      · split
        · rename_i hmore
          split
          · exact ⟨_, _, rfl, hmore, hrhands, hr.budget.trans hmeter, hr.given.symm, hr.given,
              hr.cutAt.trans hq.cutAt, Or.inl (hr.ahead.trans hq.ahead)⟩
          · rename_i emitted tokenizer _
            refine ⟨_, _, rfl, hmore, hrhands, hr.budget.trans hmeter, hr.given.symm, hr.given,
              hr.cutAt.trans hq.cutAt, Or.inr ⟨emitted, ?_⟩⟩
            rw [hr.ahead, hq.ahead]
        · rename_i hmore
          refine ⟨_, _, rfl, fun hend => ⟨hrhands, Nat.le_of_eq hr.given.symm, fun _ => ?_, fun n hn => ?_⟩⟩
          · exact hr.given.trans (hend (Bool.eq_false_iff.mpr hmore))
          · rw [hr.cutAt, hq.cutAt, hcut] at hn
            exact nomatch hn

theorem ready_new (html : List Char) (t : σ) (budget : ℕ) :
    (Parsing.new html t budget).Ready html budget :=
  ⟨hands_nil html budget, rfl, rfl, rfl, rfl, rfl, rfl, rfl⟩

/-- The states the tree builder may leave the tokenizer in are of no tag. -/
theorem readingATag_follow (a : Lookahead) (emitted : Emitted) :
    readingATag (a.follow emitted).state = false := by
  rw [Lookahead.follow]
  cases emitted.next <;> rfl

/-- Where the loop goes on, it is ready, and further. -/
theorem Ready.of_reached {budget stop : ℕ} {p q : Parsing σ} (hcut : p.cutAt = none)
    (hinput : p.ahead.input = html) (hposition : p.ahead.position = stop)
    (hopen : p.ahead.openTagStart = none) (hstate : p.ahead.state = .data) {more : Bool}
    (h : Reached html budget p q stop more true) : q.Ready html budget ∧ q.given = stop := by
  obtain ⟨-, hands, hbudget, hparsed, hgiven, hcutAt, hahead⟩ := h
  have hsame : q.ahead.input = p.ahead.input ∧ q.ahead.position = p.ahead.position ∧
      q.ahead.openTagStart = p.ahead.openTagStart := by
    rcases hahead with h | ⟨emitted, h⟩
    · rw [h]
      exact ⟨rfl, rfl, rfl⟩
    · rw [h]
      exact ⟨rfl, rfl, rfl⟩
  refine ⟨⟨hands, hbudget, hparsed, hcutAt.trans hcut, hsame.1.trans hinput, ?_,
    hsame.2.2.trans hopen, ?_⟩, hgiven⟩
  · rw [hsame.2.1, hposition, hgiven]
  · rcases hahead with h | ⟨emitted, h⟩
    · rw [h, hstate]
      rfl
    · rw [h]
      exact readingATag_follow _ _

/-- Where the look-ahead stands after it has read on. -/
structure Scanned (html : List Char) (budget : ℕ) (p : Parsing σ) (scan : Scan) : Prop where
  hands : Hands html budget p.handed p.given
  budget : p.meter.budget = budget
  parsed : p.parsed = p.given
  cutAt : p.cutAt = none
  input : p.ahead.input = html
  leaves : p.ahead.Leaves html p.given scan

/-- What a turn ends in. -/
def Turned (html : List Char) (budget : ℕ) (p q : Parsing σ) (again : Bool) : Prop :=
  if again then q.Ready html budget ∧ p.given < q.given else q.Stopped html budget

/-- Behind a tag, the loop goes on. -/
theorem exists_give_tag {budget : ℕ} {p : Parsing σ} (T : Tokenizer σ) {found : Found}
    (hp : p.Scanned html budget (.tag found)) :
    ∃ q again, p.give T html (.tag found) = some (q, again) ∧ Turned html budget p q again := by
  obtain ⟨hstart, hstop, hle, hle', hlt, hposition, hopen, hstate⟩ := hp.leaves
  obtain ⟨q, again, hreach, hq⟩ := exists_reach T found.attributes true hp.hands hp.budget
    hp.parsed hp.cutAt hstart hstop hle hle'
  refine ⟨q, again, hreach, ?_⟩
  cases again with
  | true =>
    obtain ⟨hready, hgiven⟩ := Ready.of_reached hp.cutAt hp.input hposition hopen hstate hq
    exact ⟨hready, hgiven ▸ hlt⟩
  | false => exact hq nofun

/-- At the end of the page, the loop stops. -/
theorem exists_give_ended {budget : ℕ} {p : Parsing σ} (T : Tokenizer σ)
    (hp : p.Scanned html budget .ended) :
    ∃ q again, p.give T html .ended = some (q, again) ∧ Turned html budget p q again := by
  obtain ⟨-, hopen⟩ := hp.leaves
  have hstart : IsBoundary html (p.ahead.openTagStart.getD (size html)) ∧
      p.given ≤ p.ahead.openTagStart.getD (size html) := by
    cases hs : p.ahead.openTagStart with
    | none => exact ⟨Utf8.isBoundary_size html, hp.hands.isBoundary.le_size⟩
    | some s => exact hopen s hs
  obtain ⟨q, again, hreach, hq⟩ := exists_reach T p.ahead.attributes false hp.hands hp.budget
    hp.parsed hp.cutAt hstart.1 (Utf8.isBoundary_size html) hstart.2 hstart.1.le_size
  refine ⟨q, again, hreach, ?_⟩
  cases again with
  | true => exact nomatch hq.1
  | false => exact hq fun _ => rfl

/-- Where the budget ends, the loop stops. -/
theorem exists_give_limit {budget : ℕ} {p : Parsing σ} (T : Tokenizer σ)
    (hp : p.Scanned html budget .limit) :
    ∃ q again, p.give T html .limit = some (q, again) ∧ Turned html budget p q again := by
  obtain ⟨hposition, hbase, hopen⟩ := hp.leaves
  have hstop : IsBoundary html (p.ahead.openTagStart.getD p.ahead.position) ∧
      p.given ≤ p.ahead.openTagStart.getD p.ahead.position := by
    cases hs : p.ahead.openTagStart with
    | none => exact ⟨hposition, hbase⟩
    | some s => exact hopen s hs
  obtain ⟨q, hfeed, hq⟩ : ∃ q, p.feed T html p.given
      (p.ahead.openTagStart.getD p.ahead.position) none p.meter.remaining = some q ∧
      Feeds html p q (p.ahead.openTagStart.getD p.ahead.position) :=
    exists_feed T (hp.budget ▸ hp.hands) rfl hstop.1 hstop.2 fun _ _ h => nomatch h
  have hqhands : Hands html budget q.handed q.given := (hq.budget.trans hp.budget) ▸ hq.hands
  have hparsed : q.parsed = p.given := hq.parsed.trans hp.parsed
  have hle : q.parsed ≤ q.given := by
    rw [hparsed, hq.given]
    exact hstop.2
  rw [give, hfeed, Option.map_some]
  split
  · rename_i hspent
    exact ⟨_, _, rfl, stopped_cut hqhands hle (hparsed ▸ hq.spent hspent)⟩
  · refine ⟨_, _, rfl, hqhands, hle, fun h => (nomatch h), fun n hn => Or.inl ?_⟩
    obtain rfl := Option.some.inj hn
    exact hq.given.symm

/-- The look-ahead never goes back. -/
theorem le_position_of_leaves {a : Lookahead} {base : ℕ} {scan : Scan}
    (h : a.Leaves html base scan) (hbase : base ≤ size html) : base ≤ a.position := by
  cases scan with
  | tag found =>
    obtain ⟨-, -, -, -, hlt, hposition, -⟩ := h
    exact hposition ▸ Nat.le_of_lt hlt
  | ended => exact h.1 ▸ hbase
  | limit => exact h.2.1

/-- **One turn of the loop does not fail**: it goes on further in the page, or has
stopped. -/
theorem exists_turn {budget : ℕ} {p : Parsing σ} (T : Tokenizer σ)
    (hp : p.Ready html budget) :
    ∃ q again, p.turn T html = some (q, again) ∧ Turned html budget p q again := by
  have hplace : IsBoundary p.ahead.input p.ahead.position := by
    rw [hp.input, hp.position]
    exact hp.hands.isBoundary
  obtain ⟨b, scan, hscan, hinput, hleaves⟩ :=
    Lookahead.exists_nextTag (a := { p.ahead with «foreign» := T.«foreign» p.tokenizer })
      (min (p.ahead.position + p.meter.remaining) unitsMax) hplace hp.openTagStart hp.state
  have hleaves' : b.Leaves html p.given scan := by
    rw [← hp.input, ← hp.position]
    exact hleaves
  have hforward : ¬ b.position < p.ahead.position := by
    rw [hp.position]
    exact Nat.not_lt.mpr (le_position_of_leaves hleaves' hp.hands.isBoundary.le_size)
  rw [turn, hscan, Option.bind_some, charge, if_neg hforward, Option.bind_some]
  have hscanned : Scanned html budget { p with
      ahead := b, meter := p.meter.charge (b.position - p.ahead.position) } scan :=
    ⟨hp.hands, hp.budget, hp.parsed, hp.cutAt, hinput.trans hp.input, hleaves'⟩
  cases scan with
  | tag found => exact exists_give_tag T hscanned
  | ended => exact exists_give_ended T hscanned
  | limit => exact exists_give_limit T hscanned

/-- **The loop ends.** -/
theorem exists_loop {budget fuel : ℕ} {p : Parsing σ} (T : Tokenizer σ)
    (hp : p.Ready html budget) (hfuel : size html + 1 ≤ p.given + fuel) :
    ∃ q, p.loop T html fuel = some q ∧ q.Stopped html budget := by
  induction fuel generalizing p with
  | zero =>
    have := hp.hands.isBoundary.le_size
    omega
  | succ fuel ih =>
    obtain ⟨q, again, hturn, hq⟩ := exists_turn T hp
    rw [loop, hturn, Option.bind_some]
    cases again with
    | true => exact ih hq.1 (by have := hq.2; omega)
    | false => exact ⟨q, rfl, hq⟩

end Parsing

/-! ### Any page, any budget, any tokenizer -/

/-- Where a page was cut, seen from the slices handed over: behind the last of
them; or, if that one spent the budget, before it. A page that was not cut was
handed over whole. -/
def CutFits {σ : Type} (html : List Char) (r : Parsed σ) : Prop :=
  match r.cutAt with
  | none => r.fed = size html
  | some n => n = r.fed ∨
      ∃ earlier last, r.handed = earlier ++ [last] ∧ last.start = n ∧ last.spent = true

/-- **Parsing ends, whatever the page, the budget and the tokenizer**, with no slice
taken that is not there; what was handed over are slices of the page, one after
another from its start and each between two of its characters; none but the one
that spent the budget goes past the cut; and for a budget short of the greatest
number of units, no tag is handed over that costs more than was left. -/
theorem parse_bounded {σ : Type} (T : Tokenizer σ) (t : σ) (html : List Char) (budget : ℕ) :
    ∃ r, parse T t html budget = some r ∧
      Consecutive 0 r.handed r.fed ∧
      (∀ h ∈ r.handed, slice html h.start h.stop = some h.text) ∧
      takeBytes html r.fed = some (r.handed.flatMap Handed.text) ∧
      CutFits html r ∧
      (budget < unitsMax →
        ∀ h ∈ r.handed, ∀ n, h.tag = some n → attributeCost n ≤ h.left) := by
  obtain ⟨q, hloop, hq⟩ : ∃ q, (Parsing.new html t budget).loop T html (size html + 1) = some q ∧
      q.Stopped html budget :=
    Parsing.exists_loop T (Parsing.ready_new html t budget) (Nat.le_add_left _ _)
  rw [parse, hloop, Option.bind_some]
  dsimp only
  rw [if_pos ⟨hq.parsed_le, hq.hands.isBoundary.le_size⟩]
  refine ⟨_, rfl, hq.hands.consecutive, hq.hands.slices, hq.hands.page, ?_,
    hq.hands.affordable⟩
  rw [CutFits]
  split
  · rename_i hcut
    exact hq.whole hcut
  · rename_i n hcut
    exact hq.cut n hcut

/-- A tokenizer that charges the same for every slice. -/
def charging (units : ℕ) : Tokenizer Unit where
  «foreign» _ := false
  feed _ _ _ := ((), [.charge units])
  takeLastTag _ := (none, ())
  finish _ _ := ((), [])

/-- **The slice that spends the budget goes past the cut**: two letters with units
for just that many, and a tokenizer that charges one more. And with the greatest
number of units a spent budget is not seen to be, so that a tag with an attribute
is handed over with nothing left. -/
theorem handed_past_cut :
    (∃ r, parse (charging 1) () ['a', 'b'] 2 = some r ∧
      ∃ n, r.cutAt = some n ∧ ∃ h ∈ r.handed, n < h.stop) ∧
    (∃ r, parse (charging unitsMax) () ['a', '<', 'b', ' ', 'c', '>'] unitsMax = some r ∧
      ∃ h ∈ r.handed, ∃ n, h.tag = some n ∧ h.left < attributeCost n) :=
  ⟨⟨_, rfl, 0, rfl, ⟨0, 2, ['a', 'b'], none, 0, true⟩, by decide, by decide⟩,
    ⟨_, rfl, ⟨1, 6, ['<', 'b', ' ', 'c', '>'], some 1, 0, false⟩, by decide, 1, by decide,
      by decide⟩⟩

end Syndeo.Dom
