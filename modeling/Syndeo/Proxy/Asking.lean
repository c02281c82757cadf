import Syndeo.Proxy.Control

/-!
# Every answer belongs to its question

What a question is answered with is what the proxy's cache was cleared to after
the question was written, and by nobody else's wish: between the writing and the
return exactly one clear began and ended, and no other question was written or
returned (`Syndeo.Proxy.Matched`). And the hosts that are handed out are the ones
that were said, each once and in order, as far as they are kept.

The proof follows one answer. Whatever is on its way at any moment – in the pipe to
the proxy, in the proxy, in the pipe back, in the channel – is either nothing, or
belongs to the one question that holds the lock (`Syndeo.Proxy.Control.Awaits`), or
nobody will ask again. What the pipe back holds is described by the lines that were
written and not yet read whole, whatever part of the first of them the reader has.
-/

namespace Syndeo.Proxy

open Syndeo.Text Events

/-! ### What a history should be -/

/-- What bears on the questions and the clears. -/
def Entry.isTurn : Entry → Bool
  | .asked _ | .began | .ended _ | .returned _ _ => true
  | _ => false

/-- **Since the question was written**: it was called before that, and these are the
turns there have been. -/
def Since (log : List Entry) (id : ℕ) (turns : List Entry) : Prop :=
  ∃ pre mid, log = pre ++ .asked id :: mid ∧ .called id ∈ pre ∧ mid.filter Entry.isTurn = turns

/-- **The one clear of a question**: since it was written, one clear began and ended
so, and no other question was written or returned. -/
def Matched (log : List Entry) (id : ℕ) (result : Clear) : Prop :=
  Since log id [.began, .ended result]

/-- The hosts that were said. -/
def saidIn (log : List Entry) : List (List Char) :=
  log.filterMap fun e => match e with | .said host => some host | _ => none

/-- The hosts that were heard. -/
def heardIn (log : List Entry) : List (List Char) :=
  log.filterMap fun e => match e with | .heard host => some host | _ => none

/-- Those since the last were taken. -/
def heardSince (log : List Entry) : List (List Char) :=
  log.foldl (fun hosts e =>
    match e with
    | .heard host => hosts ++ [host]
    | .took _ => []
    | _ => hosts) []

/-- The last so many. -/
def lastOf {α : Type} (k : ℕ) (l : List α) : List α := l.drop (l.length - k)

/-- **What may happen after a history.** An answer is that of the question's own clear,
and nothing else is ever taken for one. A host that is heard is the next of those that
were said. The hosts that are taken are those heard since the last were, as far as they
are kept. -/
def Right (before : List Entry) : Entry → Prop
  | .returned id (.ok n) => ∃ entries : UInt64, entries.toNat = n ∧ Matched before id (.ok entries)
  | .returned id (.error .couldNotClear) => Matched before id .failed
  | .returned _ (.error .notACount) => False
  | .returned _ (.error (.notAnAnswer _)) => False
  | .heard host => heardIn before ++ [host] <+: saidIn before
  | .took hosts => hosts = lastOf refusedKept (heardSince before)
  | _ => True

section Histories

variable {log : List Entry} {id : ℕ} {turns : List Entry} {e : Entry}

theorem Since.concat (h : Since log id turns) (e : Entry) :
    Since (log ++ [e]) id (turns ++ if e.isTurn then [e] else []) := by
  obtain ⟨pre, mid, rfl, hcalled, hturns⟩ := h
  refine ⟨pre, mid ++ [e], by simp, hcalled, ?_⟩
  rw [List.filter_append, hturns]
  cases h : e.isTurn <;> simp [h]

/-- A question that is written. -/
theorem Since.asked (h : .called id ∈ log) : Since (log ++ [.asked id]) id [] :=
  ⟨log, [], rfl, h, rfl⟩

theorem heardSince_concat : heardSince (log ++ [e]) =
    match e with
    | .heard host => heardSince log ++ [host]
    | .took _ => []
    | _ => heardSince log := by
  rw [heardSince, List.foldl_append]
  rfl

theorem saidIn_concat : saidIn (log ++ [e]) =
    saidIn log ++ match e with | .said host => [host] | _ => [] := by
  rw [saidIn, List.filterMap_append]
  cases e <;> rfl

theorem heardIn_concat : heardIn (log ++ [e]) =
    heardIn log ++ match e with | .heard host => [host] | _ => [] := by
  rw [heardIn, List.filterMap_append]
  cases e <;> rfl

end Histories

/-- A bounded queue keeps the last. -/
theorem lastOf_concat {α : Type} (k : ℕ) (l : List α) (a : α) (hk : 0 < k) :
    (if k ≤ (lastOf k l).length then (lastOf k l).drop 1 else lastOf k l) ++ [a] =
      lastOf k (l ++ [a]) := by
  rw [lastOf, lastOf, List.length_drop, List.length_append, List.length_singleton]
  rcases Nat.lt_or_ge l.length k with h | h
  · have hzero : l.length - k = 0 := by omega
    have hzero' : l.length + 1 - k = 0 := by omega
    rw [if_neg (by omega), hzero, hzero']
    rfl
  · have hsucc : l.length + 1 - k = l.length - k + 1 := by omega
    rw [if_pos (by omega), List.drop_drop, List.drop_append_of_le_length (by omega), hsucc]

theorem keepRefused_lastOf (hosts : List (List Char)) (host : List Char) :
    keepRefused (lastOf refusedKept hosts) host = lastOf refusedKept (hosts ++ [host]) :=
  lastOf_concat refusedKept hosts host (by decide)

/-! ### Lines -/

/-- The host a line says was refused. -/
def hostOfLine (text : List Char) : Option (List Char) := stripStart (refusedText ++ [' ']) text

/-- What the proxy says. -/
inductive Said : List Char → Prop
  | answer (result : Clear) : Said (answerText result)
  | refused {host : List Char} (hname : isRefusedName host = true) : Said (refusedLine host)

theorem hostOfLine_answer (result : Clear) : hostOfLine (answerText result) = none := by
  cases result with
  | ok entries => rfl
  | failed => decide

theorem hostOfLine_refused (host : List Char) : hostOfLine (refusedLine host) = some host := by
  have hstrip := stripStart_append (refusedText ++ [' ']) host
  rwa [List.append_assoc] at hstrip

/-- **An answer is read as it was meant.** -/
theorem cleared_answerText (result : Clear) : cleared (answerText result) =
    match result with
    | .ok entries => .ok entries.toNat
    | .failed => .error .couldNotClear := by
  cases result with
  | ok entries =>
    obtain ⟨hne, hdigits⟩ := toList_toString_nat entries.toNat
    have hstrip := stripStart_append (clearedText ++ [' ']) (toString entries.toNat).toList
    rw [List.append_assoc] at hstrip
    have hparse := parseU64_toString (show entries.toNat < u64Bound from entries.toNat_lt)
    rw [cleared, answerText]
    simp only [List.singleton_append] at hstrip
    rw [hstrip]
    simp only
    rw [if_pos ⟨hne, hdigits⟩, hparse]
  | failed => decide

/-- **What is said fits on a line**: it is ASCII, holds no end of a line, and is no
longer than an answer may be. -/
theorem Said.plain {text : List Char} (h : Said text) :
    (∀ c ∈ text, c.toNat < 128 ∧ c ≠ '\n') ∧ text.length ≤ maxAnswer := by
  have hdigit : ∀ c : Char, c.isDigit = true → c.toNat < 128 ∧ c ≠ '\n' := by
    intro c hc
    rw [isDigit_iff] at hc
    refine ⟨by omega, ?_⟩
    rintro rfl
    exact absurd hc (by decide)
  cases h with
  | answer result =>
    cases result with
    | ok entries =>
      obtain ⟨-, hdigits⟩ := toList_toString_nat entries.toNat
      constructor
      · intro c hc
        rw [answerText] at hc
        rcases List.mem_append.mp hc with hc | hc
        · exact (show ∀ c ∈ clearedText, c.toNat < 128 ∧ c ≠ '\n' by decide) c hc
        · rcases List.mem_cons.mp hc with rfl | hc
          · decide
          · exact hdigit c (hdigits c hc)
      · have hcount : (toString entries.toNat).toList.length ≤ 20 := by
          rw [Nat.toString_eq_ofList_toDigits, String.toList_ofList,
            Nat.length_toDigits_le_iff (by decide) (by decide)]
          exact Nat.lt_trans entries.toNat_lt (by decide)
        have hhead : clearedText.length = 22 := by decide
        rw [answerText, List.length_append, List.length_cons, hhead, maxAnswer]
        omega
    | failed => exact ⟨by decide, by decide⟩
  | @refused host hname =>
    rw [isRefusedName, Bool.and_eq_true, Bool.and_eq_true, List.all_eq_true] at hname
    obtain ⟨⟨-, hlen⟩, hall⟩ := hname
    constructor
    · intro c hc
      rw [refusedLine] at hc
      rcases List.mem_append.mp hc with hc | hc
      · exact (show ∀ c ∈ refusedText, c.toNat < 128 ∧ c ≠ '\n' by decide) c hc
      · rcases List.mem_cons.mp hc with rfl | hc
        · decide
        · have hok := hall c hc
          simp only [Bool.or_eq_true, beq_iff_eq] at hok
          rcases hok with ((hok | hok) | rfl) | rfl
          · rw [isAlpha_iff] at hok
            refine ⟨by omega, ?_⟩
            rintro rfl
            exact absurd hok (by decide)
          · exact hdigit c hok
          · decide
          · decide
    · have hhead : refusedText.length = 22 := by decide
      have hlen' := of_decide_eq_true hlen
      rw [refusedLine, List.length_append, List.length_cons, hhead, maxAnswer]
      omega

theorem Said.newline_not_mem {text : List Char} (h : Said text) : newline ∉ Utf8.encode text := by
  intro hm
  obtain ⟨c, hc, hval⟩ := Utf8.exists_mem_of_mem_encode hm (by decide)
  exact (h.plain.1 c hc).2 (Char.toNat_inj.mp hval)

theorem Said.length_le {text : List Char} (h : Said text) :
    (Utf8.encode text).length ≤ maxAnswer := by
  rw [Utf8.length_encode_of_ascii fun c hc => (h.plain.1 c hc).1]
  exact h.plain.2

/-! ### What is on its way -/

/-- The answers among some lines. -/
def answersOf (lines : List (List Char)) : List (List Char) :=
  lines.filter fun t => (hostOfLine t).isNone

/-- The hosts among them. -/
def hostsOf (lines : List (List Char)) : List (List Char) := lines.filterMap hostOfLine

/-- The answer the proxy is about to write. -/
def Server.answer : Server → List (List Char)
  | .answering a => [a]
  | _ => []

namespace Control

variable {c c' : Control} {pending : List (List Char)} {id : ℕ}

/-- **Every answer on its way**, the first to arrive first: in the channel, among the
lines that were written and not yet read, and in the proxy. -/
def onTheWay (c : Control) (pending : List (List Char)) : List (List Char) :=
  c.answers ++ answersOf pending ++ c.server.answer

/-- **Nothing is being asked**, nor can be. -/
def Quiet (c : Control) (pending : List (List Char)) : Prop :=
  c.onTheWay pending = [] ∧ (c.server = .gone ∨ c.commands = [] ∧ c.server = .listening)

/-- **The question that was written last** is in the pipe, or being seen to, or its
answer is on its way, or will never come. -/
inductive Awaits (c : Control) (pending : List (List Char)) (id : ℕ) : Prop
  | written (hcommands : c.commands = clearCommand ++ [newline]) (hserver : c.server = .listening)
      (hway : c.onTheWay pending = []) (hlog : Since c.log id [])
  | clearing (hcommands : c.commands = []) (hserver : c.server = .clearing)
      (hway : c.onTheWay pending = []) (hlog : Since c.log id [.began])
  | answered (result : Clear)
      (hserver : c.server = .gone ∨ c.commands = [] ∧ c.server ≠ .clearing)
      (hway : c.onTheWay pending = [answerText result]) (hlog : Matched c.log id result)
  | lost (hserver : c.server = .gone) (hway : c.onTheWay pending = [])

/-- **What the lock stands for.** -/
inductive Holds (c : Control) (pending : List (List Char)) : Prop
  | free (hholder : c.holder = .free) (hquiet : c.outOfStep = true ∨ c.Quiet pending)
  | asking (id : ℕ) (hholder : c.holder = .asking id) (hstep : c.outOfStep = false)
      (hquiet : c.Quiet pending) (hcalled : .called id ∈ c.log)
  | awaiting (id : ℕ) (hholder : c.holder = .awaiting id) (hstep : c.outOfStep = false)
      (hawaits : c.Awaits pending id)

theorem Holds.of_free (h : c.Holds pending) (hfree : c.holder = .free) :
    c.outOfStep = true ∨ c.Quiet pending := by
  cases h with
  | free _ hquiet => exact hquiet
  | asking _ hholder _ _ _ => exact nomatch hfree.symm.trans hholder
  | awaiting _ hholder _ _ => exact nomatch hfree.symm.trans hholder

theorem Holds.of_asking (h : c.Holds pending) (hasking : c.holder = .asking id) :
    c.outOfStep = false ∧ c.Quiet pending ∧ .called id ∈ c.log := by
  cases h with
  | free hholder _ => exact nomatch hasking.symm.trans hholder
  | asking id' hholder hstep hquiet hcalled =>
    obtain rfl : id = id' := Holder.asking.inj (hasking.symm.trans hholder)
    exact ⟨hstep, hquiet, hcalled⟩
  | awaiting _ hholder _ _ => exact nomatch hasking.symm.trans hholder

theorem Holds.of_awaiting (h : c.Holds pending) (hawaiting : c.holder = .awaiting id) :
    c.outOfStep = false ∧ c.Awaits pending id := by
  cases h with
  | free hholder _ => exact nomatch hawaiting.symm.trans hholder
  | asking _ hholder _ _ _ => exact nomatch hawaiting.symm.trans hholder
  | awaiting id' hholder hstep hawaits =>
    obtain rfl : id = id' := Holder.awaiting.inj (hawaiting.symm.trans hholder)
    exact ⟨hstep, hawaits⟩

/-- **What holds along every run, whoever holds the lock**, of the state and of the lines
that were written and not yet read whole. -/
structure Sound (c : Control) (pending : List (List Char)) : Prop where
  reads : Lines.Reads newline maxAnswer c.reader (pending.map Utf8.encode) c.output
  said : ∀ t ∈ pending, Said t
  hosts : saidIn c.log = heardIn c.log ++ hostsOf pending
  kept : c.refused = lastOf refusedKept (heardSince c.log)
  questions : ∃ k, c.commands = Separated.terminated newline (List.replicate k clearCommand)
  serving : ∀ a, c.server = .answering a → ∃ result, a = answerText result
  ended : c.reading = false → c.output = [] ∧ c.server = .gone
  called : ∀ id ∈ c.waiting, .called id ∈ c.log
  right : EachAfter Right c.log

theorem sound_start : start.Sound [] where
  reads := Lines.reads_start
  said := nofun
  hosts := rfl
  kept := rfl
  questions := ⟨0, rfl⟩
  serving := nofun
  ended := nofun
  called := nofun
  right := eachAfter_nil

theorem holds_start : start.Holds [] := .free rfl (Or.inr ⟨rfl, Or.inr ⟨rfl, rfl⟩⟩)

/-! ### What an event leaves alone -/

/-- A history goes on without a turn. -/
def Keeps (log log' : List Entry) : Prop := log' = log ∨ ∃ e, e.isTurn = false ∧ log' = log ++ [e]

theorem Keeps.since {log log' : List Entry} {turns : List Entry} (h : Keeps log log')
    (hs : Since log id turns) : Since log' id turns := by
  rcases h with rfl | ⟨e, he, rfl⟩
  · exact hs
  · have hconcat := hs.concat e
    rwa [he, if_neg Bool.false_ne_true, List.append_nil] at hconcat

theorem Keeps.mem {log log' : List Entry} {e : Entry} (h : Keeps log log') (he : e ∈ log) :
    e ∈ log' := by
  rcases h with rfl | ⟨e', -, rfl⟩
  · exact he
  · exact List.mem_append_left _ he

/-- **Something else happens**: as many answers are on their way as before. -/
theorem Holds.frame {pending' : List (List Char)} (h : c.Holds pending)
    (hholder : c'.holder = c.holder) (hstep : c'.outOfStep = c.outOfStep)
    (hway : c'.onTheWay pending' = c.onTheWay pending) (hserver : c'.server = c.server)
    (hcommands : c'.commands = c.commands) (hlog : Keeps c.log c'.log) : c'.Holds pending' := by
  have hquiet : c.Quiet pending → c'.Quiet pending' := by
    intro hq
    rw [Quiet, hway, hserver, hcommands]
    exact hq
  cases h with
  | free hfree hor => exact .free (hholder.trans hfree) (hor.imp (fun ho => hstep.trans ho) hquiet)
  | asking id hasking hout hq hcalled =>
    exact .asking id (hholder.trans hasking) (hstep.trans hout) (hquiet hq) (hlog.mem hcalled)
  | awaiting id hawaiting hout hawaits =>
    refine .awaiting id (hholder.trans hawaiting) (hstep.trans hout) ?_
    cases hawaits with
    | written h₁ h₂ h₃ h₄ =>
      exact .written (hcommands ▸ h₁) (hserver ▸ h₂) (hway.trans h₃) (hlog.since h₄)
    | clearing h₁ h₂ h₃ h₄ =>
      exact .clearing (hcommands ▸ h₁) (hserver ▸ h₂) (hway.trans h₃) (hlog.since h₄)
    | answered result h₁ h₂ h₃ =>
      exact .answered result (by rwa [hserver, hcommands]) (hway.trans h₂) (hlog.since h₃)
    | lost h₁ h₂ => exact .lost (hserver ▸ h₁) (hway.trans h₂)

/-- A turn that says nothing of hosts, in a state that is otherwise as it was. -/
theorem Sound.log {e : Entry} (h : c.Sound pending) (he : e.isTurn = true) (hr : Right c.log e) :
    Sound { c with log := c.log ++ [e] } pending := by
  obtain ⟨hsaid, hheard, hsince⟩ : saidIn (c.log ++ [e]) = saidIn c.log ∧
      heardIn (c.log ++ [e]) = heardIn c.log ∧ heardSince (c.log ++ [e]) = heardSince c.log := by
    rw [saidIn_concat, heardIn_concat, heardSince_concat]
    cases e with
    | asked _ | began | ended _ | returned _ _ => simp
    | called _ | said _ | heard _ | took _ => exact nomatch he
  exact { h with
    hosts := by rw [hsaid, hheard, h.hosts]
    kept := by rw [hsince, h.kept]
    called := fun id hid => List.mem_append_left _ (h.called id hid)
    right := eachAfter_concat.mpr ⟨h.right, hr⟩ }

/-- A question returns. -/
theorem Sound.finish {result : Except Trouble ℕ} (h : c.Sound pending)
    (hr : Right c.log (.returned id result)) : (c.finish id result).Sound pending :=
  { h.log (e := .returned id result) rfl hr with }

/-! ### What each event does -/

section Events

/-- `clear_cache` is called. -/
theorem sound_call (h : c.Sound pending) (hh : c.Holds pending) (id : ℕ) :
    Sound { c with waiting := c.waiting ++ [id], log := c.log ++ [.called id] } pending ∧
      Holds { c with waiting := c.waiting ++ [id], log := c.log ++ [.called id] } pending := by
  refine ⟨{ h with
    hosts := ?_, kept := ?_, called := fun id' hid => ?_
    right := eachAfter_concat.mpr ⟨h.right, trivial⟩ },
    hh.frame rfl rfl rfl rfl rfl (Or.inr ⟨_, rfl, rfl⟩)⟩
  · simpa [saidIn_concat, heardIn_concat] using h.hosts
  · simpa [heardSince_concat] using h.kept
  · rcases List.mem_append.mp hid with hid | hid
    · exact List.mem_append_left _ (h.called id' hid)
    · rw [List.mem_singleton.mp hid]
      exact List.mem_append_right _ List.mem_cons_self

/-- A question gets the lock: nothing is on its way, unless nothing will be asked. -/
theorem sound_enter (h : c.Sound pending) (hh : c.Holds pending) (hfree : c.holder = .free)
    (hid : id ∈ c.waiting) : (c.enter id).Sound pending ∧ (c.enter id).Holds pending := by
  have hsound : Sound { c with waiting := c.waiting.erase id } pending :=
    { h with called := fun id' hid' => h.called id' (List.mem_of_mem_erase hid') }
  have hor := hh.of_free hfree
  rcases hout : c.outOfStep with _ | _
  · have hquiet := hor.resolve_left (by rw [hout]; exact Bool.false_ne_true)
    have hanswers : c.answers = [] := (List.append_eq_nil_iff.mp
      (List.append_eq_nil_iff.mp hquiet.1).1).1
    have hquiet' : Quiet { c with waiting := c.waiting.erase id, answers := [] } pending := by
      rw [Quiet, onTheWay] at hquiet ⊢
      rwa [hanswers] at hquiet
    rcases hopen : c.stdinOpen with _ | _
    · rw [show c.enter id = finish { c with waiting := c.waiting.erase id, answers := [] } id
        (.error .stopped) by simp [enter, hout, hopen]]
      exact ⟨Sound.finish { hsound with } trivial, .free rfl (Or.inr hquiet')⟩
    · rw [show c.enter id = { c with
        waiting := c.waiting.erase id, answers := [], holder := .asking id } by
          simp [enter, hout, hopen]]
      exact ⟨{ hsound with }, .asking id rfl hout hquiet' (h.called id hid)⟩
  · rw [show c.enter id = finish { c with waiting := c.waiting.erase id } id
      (.error .stoppedAnswering) by simp [enter, hout]]
    exact ⟨hsound.finish trivial, .free rfl (Or.inl hout)⟩

/-- It is written. -/
theorem sound_ask (h : c.Sound pending) (hh : c.Holds pending) (hasking : c.holder = .asking id) :
    Sound { c with
      commands := c.commands ++ (clearCommand ++ [newline])
      holder := .awaiting id
      log := c.log ++ [.asked id] } pending ∧
    Holds { c with
      commands := c.commands ++ (clearCommand ++ [newline])
      holder := .awaiting id
      log := c.log ++ [.asked id] } pending := by
  obtain ⟨hout, ⟨hway, hserver⟩, hcalled⟩ := hh.of_asking hasking
  obtain ⟨k, hk⟩ := h.questions
  refine ⟨{ h.log (e := .asked id) rfl trivial with questions := ⟨k + 1, ?_⟩ },
    .awaiting id rfl hout ?_⟩
  · rw [hk, List.replicate_succ', Separated.terminated, Separated.terminated, List.flatMap_append]
    simp
  · rcases hserver with hgone | ⟨hcommands, hlistening⟩
    · exact .lost hgone hway
    · exact .written (by rw [hcommands]; rfl) hlistening hway (Since.asked hcalled)

theorem sound_notAsked (h : c.Sound pending) (hh : c.Holds pending)
    (hasking : c.holder = .asking id) :
    (c.finish id (.error .notAsked)).Sound pending ∧
      (c.finish id (.error .notAsked)).Holds pending :=
  ⟨h.finish trivial, .free rfl (Or.inr (hh.of_asking hasking).2.1)⟩

/-- **It has an answer, and the answer is its own.** -/
theorem sound_answer {a : List Char} {rest : List (List Char)} (h : c.Sound pending)
    (hh : c.Holds pending) (hawaiting : c.holder = .awaiting id) (ha : c.answers = a :: rest) :
    (finish { c with answers := rest } id (cleared a)).Sound pending ∧
      (finish { c with answers := rest } id (cleared a)).Holds pending := by
  obtain ⟨-, hawaits⟩ := hh.of_awaiting hawaiting
  have hway : c.onTheWay pending = a :: (rest ++ answersOf pending ++ c.server.answer) := by
    rw [onTheWay, ha]
    rfl
  cases hawaits with
  | written _ _ hnil _ => exact nomatch hway.symm.trans hnil
  | clearing _ _ hnil _ => exact nomatch hway.symm.trans hnil
  | lost _ hnil => exact nomatch hway.symm.trans hnil
  | answered result hserver hone hlog =>
    obtain ⟨rfl, hnone⟩ := List.cons.inj (hway.symm.trans hone)
    have hright : Right c.log (.returned id (cleared (answerText result))) := by
      rw [cleared_answerText]
      cases result with
      | ok entries => exact ⟨entries, rfl, hlog⟩
      | failed => exact hlog
    have hidle : c.server = .gone ∨ c.commands = [] ∧ c.server = .listening := by
      rcases hs : c.server with _ | _ | b | _
      · exact Or.inr ⟨hserver.elim (fun hgone => nomatch hs.symm.trans hgone) fun hor => hor.1, rfl⟩
      · exact absurd hs (hserver.elim (fun hgone => nomatch hs.symm.trans hgone) fun hor => hor.2)
      · rw [hs] at hnone
        simp [Server.answer] at hnone
      · exact Or.inl rfl
    have hsound : Sound { c with answers := rest } pending := { h with }
    exact ⟨hsound.finish hright, .free rfl (Or.inr ⟨hnone, hidle⟩)⟩

/-- It gives up: nobody asks again. -/
theorem sound_timeOut (h : c.Sound pending) :
    (finish { c with outOfStep := true } id (.error .timedOut)).Sound pending ∧
      (finish { c with outOfStep := true } id (.error .timedOut)).Holds pending :=
  ⟨Sound.finish { h with } trivial, .free rfl (Or.inl rfl)⟩

/-- There will be no answer: the proxy is gone, and all it wrote has been read. -/
theorem sound_disconnect (h : c.Sound pending) (hanswers : c.answers = [])
    (hreading : c.reading = false) :
    (c.finish id (.error .stopped)).Sound pending ∧
      (c.finish id (.error .stopped)).Holds pending := by
  obtain ⟨houtput, hgone⟩ := h.ended hreading
  have hpending : pending = [] := by
    have hreads := h.reads
    rw [houtput] at hreads
    exact List.map_eq_nil_iff.mp hreads.nil_of_nil
  refine ⟨h.finish trivial, .free rfl (Or.inr ⟨?_, Or.inl hgone⟩)⟩
  rw [onTheWay, show (c.finish id (.error .stopped)).answers = [] from hanswers, hpending,
    show (c.finish id (.error .stopped)).server = .gone from hgone]
  rfl

theorem sound_close (h : c.Sound pending) (hh : c.Holds pending) :
    Sound { c with stdinOpen := false } pending ∧ Holds { c with stdinOpen := false } pending :=
  ⟨{ h with }, hh.frame rfl rfl rfl rfl rfl (Or.inl rfl)⟩

/-- The hosts are taken. -/
theorem sound_takeRefused (h : c.Sound pending) (hh : c.Holds pending) :
    Sound { c with refused := [], log := c.log ++ [.took c.refused] } pending ∧
      Holds { c with refused := [], log := c.log ++ [.took c.refused] } pending := by
  refine ⟨{ h with
    hosts := ?_, kept := ?_, called := fun id hid => List.mem_append_left _ (h.called id hid)
    right := eachAfter_concat.mpr ⟨h.right, h.kept⟩ },
    hh.frame rfl rfl rfl rfl rfl (Or.inr ⟨_, rfl, rfl⟩)⟩
  · simpa [saidIn_concat, heardIn_concat] using h.hosts
  · rw [heardSince_concat]
    exact List.drop_nil.symm

/-- A byte of a line. -/
theorem sound_readByte {b : UInt8} {rest : List UInt8} (h : c.Sound pending)
    (hh : c.Holds pending) (hreading : c.reading = true) (houtput : c.output = b :: rest)
    (hb : b ≠ newline) :
    (c.readByte b rest).Sound pending ∧ (c.readByte b rest).Holds pending := by
  have hreads := h.reads
  rw [houtput] at hreads
  obtain ⟨hnone, hreads'⟩ := hreads.read hb
  rw [show c.readByte b rest = { c with
    output := rest, reader := (c.reader.read newline maxAnswer b).1 } by simp [readByte, hnone]]
  refine ⟨{ h with reads := hreads', ended := fun hfalse => ?_ },
    hh.frame rfl rfl rfl rfl rfl (Or.inl rfl)⟩
  exact nomatch hreading.symm.trans hfalse

/-- An answer is heard. -/
theorem hear_answer (c : Control) (result : Clear) : c.hear (Utf8.encode (answerText result)) =
    { c with answers := c.answers ++ [answerText result] } := by
  rw [hear, Utf8.decode_encode]
  simp only [show stripStart (refusedText ++ [' ']) (answerText result) = none from
    hostOfLine_answer result]

/-- A host is heard. -/
theorem hear_refused (c : Control) (host : List Char) :
    c.hear (Utf8.encode (refusedLine host)) =
      { c with refused := keepRefused c.refused host, log := c.log ++ [.heard host] } := by
  rw [hear, Utf8.decode_encode]
  simp only [show stripStart (refusedText ++ [' ']) (refusedLine host) = some host from
    hostOfLine_refused host]

/-- **The end of one**: an answer goes to the channel, a host to the queue. -/
theorem sound_readLine {rest : List UInt8} (h : c.Sound pending) (hh : c.Holds pending)
    (hreading : c.reading = true) (houtput : c.output = newline :: rest) :
    ∃ pending', (c.readByte newline rest).Sound pending' ∧
      (c.readByte newline rest).Holds pending' := by
  have hreads := h.reads
  rw [houtput] at hreads
  obtain ⟨line, lines, hlines, hline, hreads'⟩ := hreads.read_sep fun l hl => by
    obtain ⟨t, ht, rfl⟩ := List.mem_map.mp hl
    exact (h.said t ht).newline_not_mem
  obtain ⟨text, pending', rfl, rfl, rfl⟩ := List.map_eq_cons_iff.mp hlines
  have hsaid := h.said text List.mem_cons_self
  rw [if_pos hsaid.length_le] at hline
  refine ⟨pending', ?_⟩
  rw [show c.readByte newline rest = hear { c with
    output := rest, reader := (c.reader.read newline maxAnswer newline).1 } (Utf8.encode text) by
      simp [readByte, hline]]
  have hbase : ∀ t ∈ pending', Said t := fun t ht => h.said t (List.mem_cons_of_mem _ ht)
  cases hsaid with
  | answer result =>
    rw [hear_answer]
    have hway : c.onTheWay (answerText result :: pending') =
        (c.answers ++ [answerText result]) ++ answersOf pending' ++ c.server.answer := by
      rw [onTheWay, answersOf, List.filter_cons_of_pos (by rw [hostOfLine_answer]; rfl), answersOf]
      simp
    refine ⟨{ h with reads := hreads', said := hbase, hosts := ?_, ended := fun hfalse => ?_ },
      hh.frame rfl rfl hway.symm rfl rfl (Or.inl rfl)⟩
    · have hhosts := h.hosts
      rwa [hostsOf, List.filterMap_cons, hostOfLine_answer] at hhosts
    · exact nomatch hreading.symm.trans hfalse
  | @refused host hname =>
    rw [hear_refused]
    have hhosts : saidIn c.log = heardIn c.log ++ (host :: hostsOf pending') := by
      have hhosts := h.hosts
      rwa [hostsOf, List.filterMap_cons, hostOfLine_refused] at hhosts
    have hway : c.onTheWay (refusedLine host :: pending') = c.onTheWay pending' := by
      rw [onTheWay, onTheWay, answersOf,
        List.filter_cons_of_neg (by rw [hostOfLine_refused]; exact Bool.false_ne_true), answersOf]
    refine ⟨{ h with
      reads := hreads', said := hbase, hosts := ?_, kept := ?_
      ended := fun hfalse => ?_
      called := fun id hid => List.mem_append_left _ (h.called id hid)
      right := eachAfter_concat.mpr ⟨h.right, ?_⟩ },
      hh.frame rfl rfl hway.symm rfl rfl (Or.inr ⟨_, rfl, rfl⟩)⟩
    · simpa [saidIn_concat, heardIn_concat] using hhosts
    · rw [heardSince_concat, ← keepRefused_lastOf, ← h.kept]
    · exact nomatch hreading.symm.trans hfalse
    · exact ⟨hostsOf pending', by rw [hhosts]; simp⟩

/-- The reading thread comes to the end of the pipe. -/
theorem sound_readEnd (h : c.Sound pending) (hh : c.Holds pending) (houtput : c.output = [])
    (hgone : c.server = .gone) :
    Sound { c with reading := false } pending ∧ Holds { c with reading := false } pending :=
  ⟨{ h with ended := fun _ => ⟨houtput, hgone⟩ }, hh.frame rfl rfl rfl rfl rfl (Or.inl rfl)⟩

/-- **The proxy reads a command**: nothing else is ever written to it. -/
theorem sound_command (h : c.Sound pending) (hh : c.Holds pending)
    (hlistening : c.server = .listening) (hnewline : newline ∈ c.commands) :
    (c.command (c.commands.takeWhile (· ≠ newline))
      ((c.commands.dropWhile (· ≠ newline)).drop 1)).Sound pending ∧
    (c.command (c.commands.takeWhile (· ≠ newline))
      ((c.commands.dropWhile (· ≠ newline)).drop 1)).Holds pending := by
  obtain ⟨k, hk⟩ := h.questions
  obtain ⟨k, rfl⟩ : ∃ j, k = j + 1 := by
    rcases k with _ | k
    · rw [hk] at hnewline
      exact nomatch hnewline
    · exact ⟨k, rfl⟩
  obtain ⟨rest, hrest, hquestions⟩ : ∃ rest, c.commands = clearCommand ++ newline :: rest ∧
      rest = Separated.terminated newline (List.replicate k clearCommand) :=
    ⟨_, by rw [hk, List.replicate_succ, Separated.terminated_cons], rfl⟩
  have hplain : ∀ b ∈ clearCommand, (decide (b ≠ newline)) = true := by decide
  have htake : c.commands.takeWhile (· ≠ newline) = clearCommand := by
    rw [hrest, List.takeWhile_append_of_pos hplain, List.takeWhile_cons, if_neg (by simp),
      List.append_nil]
  have hdrop : (c.commands.dropWhile (· ≠ newline)).drop 1 = rest := by
    rw [hrest, List.dropWhile_append_of_pos hplain, List.dropWhile_cons, if_neg (by simp)]
    rfl
  have hcommand : c.command clearCommand rest = { c with
      commands := rest, server := .clearing, log := c.log ++ [.began] } := by
    rw [command, if_pos (show isCommand clearCommand = true by decide)]
  rw [htake, hdrop, hcommand]
  have hne : c.commands ≠ [] := List.ne_nil_of_mem hnewline
  have hbusy : ¬c.Quiet pending := by
    rintro ⟨-, hgone | ⟨hnil, -⟩⟩
    · exact nomatch hlistening.symm.trans hgone
    · exact hne hnil
  have hsound : Sound { c with log := c.log ++ [.began] } pending :=
    h.log (e := .began) rfl trivial
  refine ⟨{ hsound with
    questions := ⟨k, hquestions⟩, serving := nofun
    ended := fun hfalse => nomatch hlistening.symm.trans (h.ended hfalse).2 }, ?_⟩
  cases hh with
  | free hfree hor => exact .free hfree (hor.imp_right fun hq => absurd hq hbusy)
  | asking _ _ _ hq _ => exact absurd hq hbusy
  | awaiting id hawaiting hout hawaits =>
    refine .awaiting id hawaiting hout ?_
    cases hawaits with
    | written hcommands _ hway hlog =>
      have hnil : rest = [] := by
        rw [hrest] at hcommands
        exact (List.cons.inj (List.append_cancel_left hcommands)).2
      refine .clearing hnil rfl ?_ (hlog.concat .began)
      rw [onTheWay, hlistening] at hway
      exact hway
    | clearing _ hserver _ _ => exact nomatch hlistening.symm.trans hserver
    | answered _ hserver _ _ =>
      rcases hserver with hgone | ⟨hnil, -⟩
      · exact nomatch hlistening.symm.trans hgone
      · exact absurd hnil hne
    | lost hgone _ => exact nomatch hlistening.symm.trans hgone

/-- Its clear has run. -/
theorem sound_cleared (h : c.Sound pending) (hh : c.Holds pending)
    (hclearing : c.server = .clearing) (result : Clear) :
    Sound { c with
      server := .answering (answerText result), log := c.log ++ [.ended result] } pending ∧
    Holds { c with
      server := .answering (answerText result), log := c.log ++ [.ended result] } pending := by
  have hsound : Sound { c with log := c.log ++ [.ended result] } pending :=
    h.log (e := .ended result) rfl trivial
  have hbusy : ¬c.Quiet pending := by
    rintro ⟨-, hgone | ⟨-, hlistening⟩⟩
    · exact nomatch hclearing.symm.trans hgone
    · exact nomatch hclearing.symm.trans hlistening
  refine ⟨{ hsound with
    serving := fun a ha => ⟨result, (Server.answering.inj ha).symm⟩
    ended := fun hfalse => nomatch hclearing.symm.trans (h.ended hfalse).2 }, ?_⟩
  cases hh with
  | free hfree hor => exact .free hfree (hor.imp_right fun hq => absurd hq hbusy)
  | asking _ _ _ hq _ => exact absurd hq hbusy
  | awaiting id hawaiting hout hawaits =>
    refine .awaiting id hawaiting hout ?_
    cases hawaits with
    | written _ hserver _ _ => exact nomatch hclearing.symm.trans hserver
    | clearing hcommands _ hway hlog =>
      refine .answered result (Or.inr ⟨hcommands, nofun⟩) ?_ (hlog.concat (.ended result))
      rw [onTheWay, hclearing] at hway
      rw [onTheWay, (List.append_eq_nil_iff.mp hway).1]
      rfl
    | answered _ hserver _ _ =>
      rcases hserver with hgone | ⟨-, hne⟩
      · exact nomatch hclearing.symm.trans hgone
      · exact absurd hclearing hne
    | lost hgone _ => exact nomatch hclearing.symm.trans hgone

/-- The proxy writes its answer, whole. -/
theorem sound_reply {a : List Char} (h : c.Sound pending) (hh : c.Holds pending)
    (hanswering : c.server = .answering a) :
    Sound { c.write a with server := .listening } (pending ++ [a]) ∧
      Holds { c.write a with server := .listening } (pending ++ [a]) := by
  obtain ⟨result, rfl⟩ := h.serving a hanswering
  have hway : onTheWay { c.write (answerText result) with server := .listening }
      (pending ++ [answerText result]) = c.onTheWay pending := by
    rw [onTheWay, onTheWay, answersOf, List.filter_append, hanswering, answersOf]
    simp [Control.write, hostOfLine_answer, Server.answer]
  have hbusy : c.onTheWay pending ≠ [] := by
    rw [onTheWay, hanswering]
    simp [Server.answer]
  refine ⟨{ h with reads := ?_, said := ?_, hosts := ?_, serving := nofun, ended := ?_ }, ?_⟩
  · have hwrite := h.reads.write (Utf8.encode (answerText result))
    rwa [← List.map_singleton, ← List.map_append] at hwrite
  · intro t ht
    rcases List.mem_append.mp ht with ht | ht
    · exact h.said t ht
    · rw [List.mem_singleton.mp ht]
      exact .answer result
  · have hhosts := h.hosts
    rw [hostsOf] at hhosts
    show saidIn c.log = heardIn c.log ++ _
    rw [hostsOf, List.filterMap_append, List.filterMap_cons, hostOfLine_answer]
    simpa using hhosts
  · exact fun hfalse => nomatch hanswering.symm.trans (h.ended hfalse).2
  · cases hh with
    | free hfree hor => exact .free hfree (hor.imp_right fun hq => absurd hq.1 hbusy)
    | asking _ _ _ hq _ => exact absurd hq.1 hbusy
    | awaiting id hawaiting hout hawaits =>
      refine .awaiting id hawaiting hout ?_
      cases hawaits with
      | written _ _ hnil _ => exact absurd hnil hbusy
      | clearing _ _ hnil _ => exact absurd hnil hbusy
      | answered r hserver hone hlog =>
        refine .answered r (Or.inr ⟨?_, nofun⟩) (hway.trans hone) hlog
        rcases hserver with hgone | hor
        · exact nomatch hanswering.symm.trans hgone
        · exact hor.1
      | lost _ hnil => exact absurd hnil hbusy

/-- A host is said. -/
theorem sound_refuse (h : c.Sound pending) (hh : c.Holds pending) (host : List Char)
    (hserver : c.server ≠ .gone) :
    ∃ pending', (c.handshakeFailed host).Sound pending' ∧
      (c.handshakeFailed host).Holds pending' := by
  rw [handshakeFailed]
  simp only
  split
  · rename_i hsays
    have hname := hsays.1
    refine ⟨pending ++ [refusedLine (host.map lowerChar)], ?_⟩
    have hway : onTheWay c (pending ++ [refusedLine (host.map lowerChar)]) =
        c.onTheWay pending := by
      rw [onTheWay, onTheWay, answersOf, List.filter_append, answersOf]
      simp [hostOfLine_refused]
    refine ⟨{ h with
      reads := ?_, said := ?_, hosts := ?_, kept := ?_
      ended := fun hfalse => absurd (h.ended hfalse).2 hserver
      called := fun id hid => List.mem_append_left _ (h.called id hid)
      right := eachAfter_concat.mpr ⟨h.right, trivial⟩ },
      hh.frame rfl rfl hway rfl rfl (Or.inr ⟨_, rfl, rfl⟩)⟩
    · have hwrite := h.reads.write (Utf8.encode (refusedLine (host.map lowerChar)))
      rwa [← List.map_singleton, ← List.map_append] at hwrite
    · intro t ht
      rcases List.mem_append.mp ht with ht | ht
      · exact h.said t ht
      · rw [List.mem_singleton.mp ht]
        exact .refused hname
    · have hhosts := h.hosts
      rw [hostsOf] at hhosts
      rw [hostsOf, List.filterMap_append, List.filterMap_cons, hostOfLine_refused, saidIn_concat,
        heardIn_concat, hhosts]
      simp
    · rw [heardSince_concat]
      exact h.kept
  · exact ⟨pending, h, hh⟩

/-- The proxy is gone: an answer it has not written never comes. -/
theorem sound_exit (h : c.Sound pending) (hh : c.Holds pending) :
    Sound { c with server := .gone } pending ∧ Holds { c with server := .gone } pending := by
  have hsub : onTheWay { c with server := .gone } pending = c.answers ++ answersOf pending := by
    rw [onTheWay]
    exact List.append_nil _
  have hquiet : c.onTheWay pending = [] → Quiet { c with server := .gone } pending := fun hnil =>
    ⟨hsub.trans (List.append_eq_nil_iff.mp hnil).1, Or.inl rfl⟩
  refine ⟨{ h with
    serving := nofun, ended := fun hfalse => ⟨(h.ended hfalse).1, rfl⟩ }, ?_⟩
  cases hh with
  | free hfree hor => exact .free hfree (hor.imp_right fun hq => hquiet hq.1)
  | asking id hasking hout hq hcalled => exact .asking id hasking hout (hquiet hq.1) hcalled
  | awaiting id hawaiting hout hawaits =>
    refine .awaiting id hawaiting hout ?_
    cases hawaits with
    | written _ _ hnil _ => exact .lost rfl (hquiet hnil).1
    | clearing _ _ hnil _ => exact .lost rfl (hquiet hnil).1
    | lost _ hnil => exact .lost rfl (hquiet hnil).1
    | answered result hserver hone hlog =>
      -- the answer was written, or dies with the proxy
      rcases hfirst : c.answers ++ answersOf pending with _ | ⟨a, rest⟩
      · exact .lost rfl (hsub.trans hfirst)
      · refine .answered result (Or.inl rfl) (hsub.trans ?_) hlog
        rw [onTheWay, hfirst, List.cons_append] at hone
        obtain ⟨rfl, hnil⟩ := List.cons.inj hone
        rw [hfirst, (List.append_eq_nil_iff.mp hnil).1]

/-- **One event keeps it all.** -/
theorem sound_after {e : Event} (h : c.Sound pending) (hh : c.Holds pending)
    (he : c.after e = some c') : ∃ pending', c'.Sound pending' ∧ c'.Holds pending' := by
  cases e with
  | call id =>
    obtain ⟨-, ⟨⟩⟩ := Option.ite_none_right_eq_some.mp he
    exact ⟨_, sound_call h hh id⟩
  | enter id =>
    obtain ⟨⟨hfree, hid⟩, ⟨⟩⟩ := Option.ite_none_right_eq_some.mp he
    exact ⟨_, sound_enter h hh hfree hid⟩
  | ask written =>
    rcases hholder : c.holder with _ | id | id
    · exact nomatch (show none = some c' by rwa [after, hholder] at he)
    · rw [after, hholder] at he
      cases written with
      | true =>
        obtain rfl := Option.some.inj he
        exact ⟨_, sound_ask h hh hholder⟩
      | false =>
        obtain rfl := Option.some.inj he
        exact ⟨_, sound_notAsked h hh hholder⟩
    · exact nomatch (show none = some c' by rwa [after, hholder] at he)
  | answer =>
    rcases hholder : c.holder with _ | id | id
    · exact nomatch (show none = some c' by rwa [after, hholder] at he)
    · exact nomatch (show none = some c' by rwa [after, hholder] at he)
    · rcases hanswers : c.answers with _ | ⟨a, rest⟩
      · exact nomatch (show none = some c' by rwa [after, hholder, hanswers] at he)
      · rw [after, hholder, hanswers] at he
        obtain rfl := Option.some.inj he
        exact ⟨_, sound_answer h hh hholder hanswers⟩
  | timeOut =>
    rcases hholder : c.holder with _ | id | id
    · exact nomatch (show none = some c' by rwa [after, hholder] at he)
    · exact nomatch (show none = some c' by rwa [after, hholder] at he)
    · rw [after, hholder] at he
      obtain rfl := Option.some.inj he
      exact ⟨_, sound_timeOut h⟩
  | disconnect =>
    rcases hholder : c.holder with _ | id | id
    · exact nomatch (show none = some c' by rwa [after, hholder] at he)
    · exact nomatch (show none = some c' by rwa [after, hholder] at he)
    · rw [after, hholder] at he
      obtain ⟨⟨hanswers, hreading⟩, ⟨⟩⟩ := Option.ite_none_right_eq_some.mp he
      exact ⟨_, sound_disconnect h hanswers hreading⟩
  | close =>
    obtain ⟨-, ⟨⟩⟩ := Option.ite_none_right_eq_some.mp he
    exact ⟨_, sound_close h hh⟩
  | takeRefused =>
    obtain rfl := Option.some.inj he
    exact ⟨_, sound_takeRefused h hh⟩
  | read =>
    rcases houtput : c.output with _ | ⟨b, rest⟩
    · exact nomatch (show none = some c' by rwa [after, houtput] at he)
    · rw [after, houtput] at he
      obtain ⟨hreading, ⟨⟩⟩ := Option.ite_none_right_eq_some.mp he
      rcases eq_or_ne b newline with rfl | hb
      · exact sound_readLine h hh hreading houtput
      · exact ⟨_, sound_readByte h hh hreading houtput hb⟩
  | readEnd =>
    obtain ⟨⟨houtput, hgone⟩, ⟨⟩⟩ := Option.ite_none_right_eq_some.mp he
    exact ⟨_, sound_readEnd h hh houtput hgone⟩
  | command =>
    obtain ⟨⟨hlistening, hnewline⟩, ⟨⟩⟩ := Option.ite_none_right_eq_some.mp he
    exact ⟨_, sound_command h hh hlistening hnewline⟩
  | cleared result =>
    obtain ⟨hclearing, ⟨⟩⟩ := Option.ite_none_right_eq_some.mp he
    exact ⟨_, sound_cleared h hh hclearing result⟩
  | reply =>
    rcases hserver : c.server with _ | _ | a | _
    · exact nomatch (show none = some c' by rwa [after, hserver] at he)
    · exact nomatch (show none = some c' by rwa [after, hserver] at he)
    · rw [after, hserver] at he
      obtain rfl := Option.some.inj he
      exact ⟨_, sound_reply h hh hserver⟩
    · exact nomatch (show none = some c' by rwa [after, hserver] at he)
  | refuse host =>
    obtain ⟨hserver, ⟨⟩⟩ := Option.ite_none_left_eq_some.mp he
    exact sound_refuse h hh host hserver
  | exit =>
    obtain rfl := Option.some.inj he
    exact ⟨_, sound_exit h hh⟩

/-- **Every run.** -/
theorem sound_of_runs {l : List Event} (h : Runs Step start l c) :
    ∃ pending, c.Sound pending ∧ c.Holds pending :=
  h.invariant (I := fun c => ∃ pending, c.Sound pending ∧ c.Holds pending)
    (fun _ _ _ ⟨_, hs, hh⟩ he => sound_after hs hh he) ⟨[], sound_start, holds_start⟩

end Events

/-! ### Reading a line -/

section Reading

variable {line rest : List UInt8}

/-- A part of a line is read. -/
theorem runs_part (part : List UInt8) (hreading : c.reading = true)
    (hreader : c.reader = .after maxAnswer part) (houtput : c.output = line ++ rest)
    (hline : newline ∉ line) :
    Runs Step c (List.replicate line.length .read)
      { c with output := rest, reader := .after maxAnswer (part ++ line) } := by
  induction line generalizing c part with
  | nil =>
    rw [List.append_nil, ← hreader, ← (show c.output = rest from houtput)]
    exact .nil c
  | cons b line ih =>
    obtain ⟨hb, hrest⟩ := List.ne_and_not_mem_of_not_mem_cons hline
    have hread : (Lines.Reader.after maxAnswer part).read newline maxAnswer b =
        (.after maxAnswer (part ++ [b]), none) := Lines.Reader.read_after (Ne.symm hb)
    have hstep : Step c .read { c with
        output := line ++ rest, reader := .after maxAnswer (part ++ [b]) } := by
      rw [Step, after, houtput, List.cons_append]
      simp [hreading, readByte, hreader, hread]
    have hrun := ih (c := { c with
        output := line ++ rest, reader := .after maxAnswer (part ++ [b]) })
      (part ++ [b]) hreading rfl rfl hrest
    rw [List.append_assoc] at hrun
    exact .cons hstep hrun

/-- **A line that was written is read**, a byte at a time. -/
theorem runs_line (hreading : c.reading = true) (hreader : c.reader = .start)
    (houtput : c.output = line ++ newline :: rest) (hline : newline ∉ line)
    (hlength : line.length ≤ maxAnswer) :
    Runs Step c (List.replicate line.length .read ++ [.read])
      (hear { c with output := rest } line) := by
  have hpart := runs_part [] hreading (hreader.trans Lines.Reader.after_nil.symm) houtput hline
  refine hpart.append (.cons ?_ (.nil _))
  have hread : (Lines.Reader.after maxAnswer line).read newline maxAnswer newline = (.start, _) :=
    Lines.Reader.read_sep
  rw [if_pos hlength] at hread
  rw [Step, after]
  simp [hreading, readByte, hread, hreader]

/-- The first answer there is, is the one that is taken. -/
theorem step_answer {a : List Char} {others : List (List Char)} (hholder : c.holder = .awaiting id)
    (hanswers : c.answers = a :: others) :
    Step c .answer (finish { c with answers := others } id (cleared a)) := by
  rw [Step, after, hholder, hanswers]

end Reading

end Control

/-! ### The answers -/

/-- **Every answer belongs to its question**, and every host to the proxy: whatever
happened in a run happened after what it calls for, and with nothing left in the pipe
every host that was said has been heard. -/
theorem answers_belong {l : List Control.Event} {c : Control}
    (h : Runs Control.Step Control.start l c) :
    EachAfter Right c.log ∧ (c.output = [] → heardIn c.log = saidIn c.log) := by
  obtain ⟨pending, hsound, -⟩ := Control.sound_of_runs h
  refine ⟨hsound.right, fun houtput => ?_⟩
  have hreads := hsound.reads
  rw [houtput] at hreads
  rw [hsound.hosts, List.map_eq_nil_iff.mp hreads.nil_of_nil]
  exact (List.append_nil _).symm

/-- **A question that is answered**: the proxy clears three entries, and says so. -/
theorem answers_belong_cleared : ∃ l c, Runs Control.Step Control.start l c ∧
    .returned 7 (.ok 3) ∈ c.log ∧ EachAfter Right c.log ∧
    (c.output = [] → heardIn c.log = saidIn c.log) := by
  obtain ⟨c, hasked, hholder, hanswers, hreading, hreader, houtput⟩ : ∃ c,
      Runs Control.Step Control.start
        [.call 7, .enter 7, .ask true, .command, .cleared (.ok 3), .reply] c ∧
      c.holder = .awaiting 7 ∧ c.answers = [] ∧ c.reading = true ∧ c.reader = .start ∧
      c.output = Utf8.encode (answerText (.ok 3)) ++ newline :: [] :=
    ⟨_, .cons rfl (.cons rfl (.cons rfl (.cons rfl (.cons rfl (.cons rfl (.nil _)))))),
      rfl, rfl, rfl, rfl, rfl⟩
  have hsaid : Said (answerText (.ok 3)) := .answer (.ok 3)
  have hread := hasked.append
    (Control.runs_line hreading hreader houtput hsaid.newline_not_mem hsaid.length_le)
  rw [Control.hear_answer] at hread
  have hanswer := Control.step_answer (c := { c with
    output := [], answers := c.answers ++ [answerText (.ok 3)] }) (a := answerText (.ok 3))
    hholder (by rw [hanswers]; rfl)
  rw [cleared_answerText] at hanswer
  have hrun := hread.append (.cons hanswer (.nil _))
  exact ⟨_, _, hrun, List.mem_append_right _ List.mem_cons_self, answers_belong hrun⟩

end Syndeo.Proxy
