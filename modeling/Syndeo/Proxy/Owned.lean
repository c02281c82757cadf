import Syndeo.Net.SocketAddr
import Syndeo.Proxy.Credential

/-!
# The proxy a browser starts

A browser starts its proxy itself. It writes the proxy its credential, and then it waits until
the proxy says where it listens, on its own output, to which nothing else can write: one line,
of a bounded length, read strictly. While it waits it sees again and again whether the proxy
has exited, whether the line has been read, and what time it is.

So a proxy is owned exactly if its first line is an announcement and is heard in time, and a
child that is not owned is stopped (`Syndeo.Proxy.owned_of_start`). A proxy that has read its
frame and is bound announces the address it is bound to, so what the browser's web views are
told is where that proxy listens and whom it admits.
-/

namespace Syndeo

namespace Proxy

open BufRead Reader Syndeo.Text

/-! ### The announcement -/

/-- `READY`, as the proxy has it. -/
def readyText : List Char := "SYNDEO-PROXY-READY 1".toList

/-- `MAX_ANNOUNCEMENT`. -/
def maxAnnouncement : ℕ := 96

/-- `announce_ready`: its line. -/
def announcement (bound : SocketAddrV4) : List Char := readyText ++ ' ' :: bound.text

/-- Why there is no announcement. -/
inductive Misannounced
  | notText
  | notReadiness (text : List Char)
  | notAddress (rest : List Char)
  | notLoopback (rest : List Char)
  | portZero
  | closed
  | tooLong
  | unread
  deriving DecidableEq, Repr

variable (isV6 : List Char → Bool)

/-- `parse_announcement`; `isV6` is whether a text is an IPv6 socket address, which is not what
was asked for. -/
def parseAnnouncement (line : Bytes) : Except Misannounced SocketAddrV4 :=
  match Utf8.decode line with
  | none => .error .notText
  | some text =>
    match stripStart (readyText ++ [' ']) text with
    | none => .error (.notReadiness text)
    | some rest =>
      match SocketAddrV4.ofText rest with
      | none => .error (if isV6 rest then .notLoopback rest else .notAddress rest)
      | some address =>
        if address.isLoopback = false then .error (.notLoopback rest)
        else if address.port = 0 then .error .portZero
        else .ok address

/-- `read_announcement`, as far as the line: a byte at a time, of an output that ends where the
child closes it, and where a read may fail. -/
def readAnnouncement (line : Bytes) : List (Option UInt8) → Except Misannounced SocketAddrV4
  | [] => .error .closed
  | none :: _ => .error .unread
  | some byte :: rest =>
    if byte = newline then parseAnnouncement isV6 line
    else if maxAnnouncement < (line ++ [byte]).length then .error .tooLong
    else readAnnouncement (line ++ [byte]) rest

/-! ### The start -/

/-- Why a proxy was not started. -/
inductive NotStarted
  | notSpawned
  | notHanded
  | outputNotRead
  | waitFailed
  | exited (status : ℕ)
  | misannounced (why : Misannounced)
  | outputLost
  | late
  deriving DecidableEq, Repr

/-- What `recv_timeout` says: what the reader of the output has sent, and how the child exits
within a moment, if it does (`exited_soon`, which is asked where there is no announcement);
nothing yet; or that nothing will come. -/
inductive Heard
  | said (exits : Option ℕ)
  | nothing
  | lost
  deriving DecidableEq, Repr

/-- One turn of the loop, and what it sees: `try_wait`, the channel, and the milliseconds since
the start. -/
structure Poll where
  status : Except Unit (Option ℕ)
  heard : Heard
  now : ℕ

/-- The loop of `start_owned`. -/
def await (within : ℕ) (announced : Except Misannounced SocketAddrV4) :
    List Poll → Option (Except NotStarted SocketAddrV4)
  | [] => none
  | turn :: turns =>
    match turn.status with
    | .error _ => some (.error .waitFailed)
    | .ok (some status) => some (.error (.exited status))
    | .ok none =>
      match turn.heard with
      | .said exits =>
        match announced, exits with
        | .ok endpoint, _ => some (.ok endpoint)
        | .error _, some status => some (.error (.exited status))
        | .error why, none => some (.error (.misannounced why))
      | .lost => some (.error .outputLost)
      | .nothing => if within ≤ turn.now then some (.error .late) else await within announced turns

/-- What became of starting a child: whether there is one, whether its credential could be
written, and whether its output is read; what it writes; and the turns there were. -/
structure Child where
  spawned : Bool
  handed : Bool
  outputRead : Bool
  stdout : List (Option UInt8)
  turns : List Poll

/-- `start_owned`: it still waits; or the proxy is owned, and listens there; or it is not, and
whether there was a child that was dropped, which stops it. -/
inductive Started
  | waiting
  | owned (endpoint : SocketAddrV4)
  | failed (why : NotStarted) (stopped : Bool)
  deriving DecidableEq, Repr

/-- `start_owned`. -/
def startOwned (within : ℕ) (child : Child) : Started :=
  if child.spawned = false then .failed .notSpawned false
  else if child.handed = false then .failed .notHanded true
  else if child.outputRead = false then .failed .outputNotRead true
  else
    match await within (readAnnouncement isV6 [] child.stdout) child.turns with
    | none => .waiting
    | some (.ok endpoint) => .owned endpoint
    | some (.error why) => .failed why true

/-- What a proxy does that is bound there and is told to announce it: its frame is read first,
and without one it exits. Then it says where it listens, and what else it says comes later. -/
def announceBound (encode : Bytes → String) (stdin : Reader UInt8) (bound : SocketAddrV4)
    (later : List (Option UInt8)) : Option ProxyAuth × List (Option UInt8) :=
  match ProxyAuth.readFrame encode stdin with
  | (.ok auth, _) => (some auth, (Utf8.encode (announcement bound) ++ [newline]).map some ++ later)
  | (.error _, _) => (none, [])

/-! ### What is announced -/

/-- **The first line is an announcement**, and no longer than one may be: of an address on
loopback, with a port. -/
def Announces (stdout : List (Option UInt8)) (endpoint : SocketAddrV4) : Prop :=
  ∃ text later, '\n' ∉ text ∧
    stdout = (Utf8.encode (readyText ++ ' ' :: text) ++ [newline]).map some ++ later ∧
    (Utf8.encode (readyText ++ ' ' :: text)).length ≤ maxAnnouncement ∧
    SocketAddrV4.ofText text = some endpoint ∧ endpoint.isLoopback = true ∧ endpoint.port ≠ 0

variable {isV6} {line : Bytes} {endpoint : SocketAddrV4} {stdout : List (Option UInt8)}

theorem parseAnnouncement_iff : parseAnnouncement isV6 line = .ok endpoint ↔
    ∃ text, line = Utf8.encode (readyText ++ ' ' :: text) ∧
      SocketAddrV4.ofText text = some endpoint ∧ endpoint.isLoopback = true ∧ endpoint.port ≠ 0 := by
  have hready : ∀ text, readyText ++ [' '] ++ text = readyText ++ ' ' :: text :=
    fun text => List.append_assoc _ _ _
  constructor
  · intro h
    rw [parseAnnouncement] at h
    split at h
    · cases h
    · rename_i all hdecode
      split at h
      · cases h
      · rename_i text hstrip
        split at h
        · cases h
        · rename_i address htext
          split_ifs at h with hloopback hport
          obtain rfl := Except.ok.inj h
          refine ⟨text, ?_, htext, by simpa using hloopback, hport⟩
          rw [← hready, ← eq_append_of_stripStart hstrip]
          exact Utf8.decode_eq_some_iff.mp hdecode
  · rintro ⟨text, rfl, htext, hloopback, hport⟩
    have hstrip := stripStart_append (readyText ++ [' ']) text
    rw [hready] at hstrip
    rw [parseAnnouncement, Utf8.decode_encode]
    dsimp only
    rw [hstrip]
    dsimp only
    rw [htext]
    dsimp only
    rw [hloopback, if_neg (by decide), if_neg hport]

/-- A line that is short enough is parsed whole. -/
theorem readAnnouncement_of_line {more : Bytes} {later : List (Option UInt8)}
    (hnot : newline ∉ more) (hlen : (line ++ more).length ≤ maxAnnouncement) :
    readAnnouncement isV6 line ((more ++ [newline]).map some ++ later) =
      parseAnnouncement isV6 (line ++ more) := by
  induction more generalizing line with
  | nil => rw [List.append_nil, List.nil_append]; exact if_pos rfl
  | cons byte more ih =>
    obtain ⟨hne, hnot⟩ := List.ne_and_not_mem_of_not_mem_cons hnot
    rw [List.cons_append, List.map_cons, List.cons_append, readAnnouncement, if_neg (Ne.symm hne),
      if_neg, ih hnot]
    · rw [List.append_assoc, List.singleton_append]
    · rwa [List.append_assoc, List.singleton_append]
    · rw [List.length_append, List.length_cons] at hlen
      rw [List.length_append, List.length_singleton]
      omega

theorem exists_line_of_readAnnouncement (hlen : line.length ≤ maxAnnouncement)
    (h : readAnnouncement isV6 line stdout = .ok endpoint) :
    ∃ more later, newline ∉ more ∧ stdout = (more ++ [newline]).map some ++ later ∧
      (line ++ more).length ≤ maxAnnouncement ∧
      parseAnnouncement isV6 (line ++ more) = .ok endpoint := by
  induction stdout generalizing line with
  | nil => cases h
  | cons read rest ih =>
    cases read with
    | none => cases h
    | some byte =>
      rw [readAnnouncement] at h
      split_ifs at h with hnewline hlong
      · obtain rfl := hnewline
        refine ⟨[], rest, List.not_mem_nil, rfl, ?_, ?_⟩
        · rwa [List.append_nil]
        · rwa [List.append_nil]
      · obtain ⟨more, later, hnot, rfl, hfits, hparse⟩ := ih (Nat.not_lt.mp hlong) h
        rw [List.append_assoc, List.singleton_append] at hfits hparse
        exact ⟨byte :: more, later, List.not_mem_cons_of_ne_of_not_mem (Ne.symm hnewline) hnot, rfl,
          hfits, hparse⟩

theorem newline_not_mem_encode {text : List Char} (h : '\n' ∉ text) :
    newline ∉ Utf8.encode (readyText ++ ' ' :: text) := by
  intro hmem
  obtain ⟨c, hc, hval⟩ := Utf8.exists_mem_of_mem_encode hmem (by decide)
  obtain rfl : c = '\n' := Char.toNat_inj.mp hval
  rcases List.mem_append.mp hc with hc | hc
  · exact absurd hc (by decide)
  · exact h ((List.mem_cons.mp hc).resolve_left (by decide))

/-- **What is read is what is announced.** -/
theorem readAnnouncement_iff :
    readAnnouncement isV6 [] stdout = .ok endpoint ↔ Announces stdout endpoint := by
  constructor
  · intro h
    obtain ⟨more, later, hnot, rfl, hlen, hparse⟩ :=
      exists_line_of_readAnnouncement (Nat.zero_le _) h
    obtain ⟨text, htext, haddress⟩ := parseAnnouncement_iff.mp hparse
    rw [List.nil_append] at hlen htext
    rw [htext] at hnot hlen
    refine ⟨text, later, ?_, by rw [htext], hlen, haddress⟩
    intro hmem
    apply hnot
    rw [Utf8.encode_append]
    refine List.mem_append_right _ (List.mem_flatMap.mpr ⟨'\n', List.mem_cons_of_mem _ hmem, ?_⟩)
    decide
  · rintro ⟨text, later, hnot, rfl, hlen, haddress⟩
    rw [readAnnouncement_of_line (newline_not_mem_encode hnot) hlen]
    exact parseAnnouncement_iff.mpr ⟨text, rfl, haddress⟩

/-- **A proxy announces what it is bound to**, if that is on loopback and has a port. -/
theorem announces_iff {bound : SocketAddrV4} {later : List (Option UInt8)} :
    Announces ((Utf8.encode (announcement bound) ++ [newline]).map some ++ later) endpoint ↔
      endpoint = bound ∧ bound.isLoopback = true ∧ bound.port ≠ 0 := by
  have hplain := bound.plain_text
  have hnot : '\n' ∉ bound.text := fun hmem => (hplain _ hmem).2 rfl
  have hlen : (Utf8.encode (announcement bound)).length ≤ maxAnnouncement := by
    have htext := bound.length_text_le
    have hready : readyText.length = 20 := by decide
    rw [Utf8.length_encode_of_ascii, announcement, List.length_append, List.length_cons, hready,
      maxAnnouncement]
    · omega
    · intro c hc
      rcases List.mem_append.mp hc with hc | hc
      · exact (show ∀ c ∈ readyText, c.toNat < 128 by decide) c hc
      · rcases List.mem_cons.mp hc with rfl | hc
        · decide
        · exact (hplain c hc).1
  have hline : newline ∉ Utf8.encode (announcement bound) := newline_not_mem_encode hnot
  have hread : readAnnouncement (fun _ => false) []
      ((Utf8.encode (announcement bound) ++ [newline]).map some ++ later) = .ok endpoint ↔ _ :=
    readAnnouncement_iff
  rw [← hread, readAnnouncement_of_line hline hlen, List.nil_append, parseAnnouncement_iff]
  constructor
  · rintro ⟨text, htext, haddress, hloopback, hport⟩
    obtain rfl : bound.text = text :=
      (List.cons.inj (List.append_cancel_left (Utf8.encode_injective htext))).2
    rw [SocketAddrV4.ofText_text] at haddress
    obtain rfl := Option.some.inj haddress
    exact ⟨rfl, hloopback, hport⟩
  · rintro ⟨rfl, hloopback, hport⟩
    exact ⟨endpoint.text, rfl, SocketAddrV4.ofText_text endpoint, hloopback, hport⟩

/-! ### The loop -/

/-- **The reader's word comes in time**: until then the child runs, nothing is heard, and the
time is not up. -/
def HeardInTime (within : ℕ) (turns : List Poll) : Prop :=
  ∃ before turn after, turns = before ++ turn :: after ∧
    (∀ t ∈ before, t.status = .ok none ∧ t.heard = .nothing ∧ t.now < within) ∧
    turn.status = .ok none ∧ ∃ exits, turn.heard = .said exits

/-- **The clock goes on**: where a turn heard nothing it waited for that. -/
def Ticks (turns : List Poll) : Prop :=
  ∀ i turn, turns[i]? = some turn → turn.heard = .nothing → 50 * (i + 1) ≤ turn.now

variable {within : ℕ} {announced : Except Misannounced SocketAddrV4} {turn : Poll}
  {turns : List Poll}

theorem heardInTime_cons_iff : HeardInTime within (turn :: turns) ↔ turn.status = .ok none ∧
    ((∃ exits, turn.heard = .said exits) ∨
      turn.heard = .nothing ∧ turn.now < within ∧ HeardInTime within turns) := by
  constructor
  · rintro ⟨before, last, after, hsplit, hbefore, hlast⟩
    cases before with
    | nil =>
      obtain ⟨rfl, -⟩ := List.cons.inj hsplit
      exact ⟨hlast.1, Or.inl hlast.2⟩
    | cons first before =>
      obtain ⟨rfl, rfl⟩ := List.cons.inj hsplit
      obtain ⟨hruns, hnothing, hnow⟩ := hbefore turn List.mem_cons_self
      exact ⟨hruns, Or.inr ⟨hnothing, hnow, before, last, after, rfl,
        fun t ht => hbefore t (List.mem_cons_of_mem _ ht), hlast⟩⟩
  · rintro ⟨hruns, hsaid | ⟨hnothing, hnow, before, last, after, rfl, hbefore, hlast⟩⟩
    · exact ⟨[], turn, turns, rfl, fun t ht => absurd ht List.not_mem_nil, hruns, hsaid⟩
    · refine ⟨turn :: before, last, after, rfl, ?_, hlast⟩
      intro t ht
      rcases List.mem_cons.mp ht with rfl | ht
      · exact ⟨hruns, hnothing, hnow⟩
      · exact hbefore t ht

/-- **The loop ends well** exactly if there is an announcement, and it is heard in time. -/
theorem await_ok_iff : await within announced turns = some (.ok endpoint) ↔
    announced = .ok endpoint ∧ HeardInTime within turns := by
  induction turns with
  | nil =>
    constructor
    · intro h
      cases h
    · rintro ⟨-, before, last, after, hsplit, -⟩
      exact absurd hsplit (by simp)
  | cons turn turns ih =>
    rw [heardInTime_cons_iff, await]
    rcases hstatus : turn.status with err | _ | status
    · simp
    · rcases hheard : turn.heard with exits | _ | _
      · rcases announced with why | address
        · cases exits <;> simp
        · simp
      · dsimp only
        split_ifs with hlate
        · simp [Nat.not_lt.mpr hlate]
        · simp [ih, Nat.lt_of_not_le hlate]
      · simp
    · simp

/-- While it waits nothing has been heard, and the time is not up. -/
theorem nothing_of_await_none (h : await within announced turns = none) :
    ∀ t ∈ turns, t.heard = .nothing ∧ t.now < within := by
  induction turns with
  | nil => exact fun t ht => absurd ht List.not_mem_nil
  | cons turn turns ih =>
    rw [await] at h
    rcases hstatus : turn.status with err | _ | status
    · rw [hstatus] at h
      cases h
    · rw [hstatus] at h
      rcases hheard : turn.heard with exits | _ | _
      · rw [hheard] at h
        rcases announced with why | address
        · cases exits <;> cases h
        · cases h
      · rw [hheard] at h
        dsimp only at h
        split_ifs at h with hlate
        intro t ht
        rcases List.mem_cons.mp ht with rfl | ht
        · exact ⟨hheard, Nat.lt_of_not_le hlate⟩
        · exact ih h t ht
      · rw [hheard] at h
        cases h
    · rw [hstatus] at h
      cases h

/-- **It does not wait for ever.** -/
theorem length_lt_of_await_none (h : await within announced turns = none) (hticks : Ticks turns)
    (hne : turns ≠ []) : 50 * turns.length < within := by
  obtain ⟨hnothing, hnow⟩ := nothing_of_await_none h (turns.getLast hne) (List.getLast_mem hne)
  have hpos : 0 < turns.length := List.length_pos_iff.mpr hne
  have hlast : turns[turns.length - 1]? = some (turns.getLast hne) := by
    rw [← List.getLast?_eq_getElem?, List.getLast?_eq_some_getLast hne]
  have htick := hticks _ _ hlast hnothing
  omega

/-! ### What is owned -/

variable {child : Child}

/-- A child runs, has its credential, and its output is read. -/
def Child.Runs (child : Child) : Prop :=
  child.spawned = true ∧ child.handed = true ∧ child.outputRead = true

/-- **What comes of a start.** -/
inductive StartSpec (isV6 : List Char → Bool) (within : ℕ) (child : Child) : Started → Prop
  | refused (why : NotStarted) (hnot : ¬child.Runs) :
    StartSpec isV6 within child (.failed why child.spawned)
  | waiting (hruns : child.Runs)
    (hawait : await within (readAnnouncement isV6 [] child.stdout) child.turns = none) :
    StartSpec isV6 within child .waiting
  | owned {endpoint : SocketAddrV4} (hruns : child.Runs)
    (hawait : await within (readAnnouncement isV6 [] child.stdout) child.turns =
      some (.ok endpoint)) : StartSpec isV6 within child (.owned endpoint)
  | failed {why : NotStarted} (hruns : child.Runs)
    (hawait : await within (readAnnouncement isV6 [] child.stdout) child.turns =
      some (.error why)) : StartSpec isV6 within child (.failed why child.spawned)

theorem startSpec (isV6 : List Char → Bool) (within : ℕ) (child : Child) :
    StartSpec isV6 within child (startOwned isV6 within child) := by
  rw [startOwned]
  split_ifs with hspawned hhanded hread
  · rw [← hspawned]
    exact .refused _ fun h => absurd (hspawned.symm.trans h.1) (by decide)
  · rw [← Bool.eq_true_of_not_eq_false hspawned]
    exact .refused _ fun h => absurd (hhanded.symm.trans h.2.1) (by decide)
  · rw [← Bool.eq_true_of_not_eq_false hspawned]
    exact .refused _ fun h => absurd (hread.symm.trans h.2.2) (by decide)
  · have hruns : child.Runs := ⟨Bool.eq_true_of_not_eq_false hspawned,
      Bool.eq_true_of_not_eq_false hhanded, Bool.eq_true_of_not_eq_false hread⟩
    split
    · rename_i hawait
      exact .waiting hruns hawait
    · rename_i hawait
      exact .owned hruns hawait
    · rename_i hawait
      rw [← hruns.1]
      exact .failed hruns hawait

theorem startOwned_owned_iff : startOwned isV6 within child = .owned endpoint ↔
    child.Runs ∧ Announces child.stdout endpoint ∧ HeardInTime within child.turns := by
  have hread : readAnnouncement isV6 [] child.stdout = .ok endpoint ↔ _ := readAnnouncement_iff
  have hspec := startSpec isV6 within child
  rw [← hread, ← await_ok_iff]
  generalize startOwned isV6 within child = started at hspec
  cases hspec with
  | refused why hnot => simp [hnot]
  | waiting hruns hawait => simp [hawait]
  | owned hruns hawait => simp [hruns, hawait]
  | failed hruns hawait => simp [hawait]

/-- **A proxy is owned** exactly if its first line is an announcement, and that is heard in
time. A child that is not is stopped; and it is decided in time. Where the child is the proxy,
what its owner has is where it is bound, and the token in its frame is the one it admits. -/
theorem owned_of_start (isV6 : List Char → Bool) (within : ℕ) (child : Child) :
    (∀ endpoint, startOwned isV6 within child = .owned endpoint ↔
      child.Runs ∧ Announces child.stdout endpoint ∧ HeardInTime within child.turns) ∧
      (∀ why stopped, startOwned isV6 within child = .failed why stopped →
        stopped = child.spawned) ∧
      (startOwned isV6 within child = .waiting → Ticks child.turns → child.turns ≠ [] →
        50 * child.turns.length < within) ∧
      ∀ (encode : Bytes → String) (stdin : Reader UInt8) (bound endpoint : SocketAddrV4)
        (later : List (Option UInt8)) (auth : Option ProxyAuth), Function.Injective encode →
        announceBound encode stdin bound later = (auth, child.stdout) →
        startOwned isV6 within child = .owned endpoint → endpoint = bound ∧
          ∃ accepted token rest, auth = some accepted ∧
            stdin.rest = ProxyCredential.frame token ++ rest ∧
            AdmitsOnly encode accepted token := by
  refine ⟨fun _ => startOwned_owned_iff, ?_, ?_, ?_⟩
  · intro why stopped h
    have hspec := startSpec isV6 within child
    rw [h] at hspec
    cases hspec with
    | refused => rfl
    | failed => rfl
  · intro h hticks hne
    have hspec := startSpec isV6 within child
    rw [h] at hspec
    cases hspec with
    | waiting _ hawait => exact length_lt_of_await_none hawait hticks hne
  · intro encode stdin bound endpoint later auth hencode hproxy howned
    obtain ⟨-, hannounces, -⟩ := startOwned_owned_iff.mp howned
    rw [announceBound] at hproxy
    generalize hread : ProxyAuth.readFrame encode stdin = out at hproxy
    rcases out with ⟨refusal | accepted, stdin'⟩
    · obtain ⟨-, hstdout⟩ := Prod.mk.inj hproxy
      rw [← hstdout] at hannounces
      obtain ⟨text, rest, -, hnil, -⟩ := hannounces
      exact absurd hnil (by simp)
    · obtain ⟨rfl, hstdout⟩ := Prod.mk.inj hproxy
      rw [← hstdout, announces_iff] at hannounces
      obtain ⟨token, -, rfl, hrest⟩ := exists_token_of_readFrame hread
      exact ⟨hannounces.1, _, token, stdin'.rest, rfl, hrest, admitsOnly_forToken hencode token⟩

/-- A proxy that is bound at once, and heard at the second look. -/
def sampleBound : SocketAddrV4 := ⟨127, 0, 0, 1, 5000⟩

def sampleChild : Child where
  spawned := true
  handed := true
  outputRead := true
  stdout := (Utf8.encode (announcement sampleBound) ++ [newline]).map some ++ []
  turns := [⟨.ok none, .nothing, 50⟩, ⟨.ok none, .said none, 60⟩]

theorem owned_of_start_soon : startOwned (fun _ => false) 10000 sampleChild = .owned sampleBound ∧
    ∃ accepted token rest, some (ProxyAuth.forToken Base64Bytes.encode sampleToken) = some accepted ∧
      ProxyCredential.frame sampleToken = ProxyCredential.frame token ++ rest ∧
      AdmitsOnly Base64Bytes.encode accepted token := by
  have hannounces : Announces sampleChild.stdout sampleBound :=
    announces_iff.mpr ⟨rfl, by decide, by decide⟩
  have htime : HeardInTime 10000 sampleChild.turns :=
    heardInTime_cons_iff.mpr ⟨rfl, Or.inr ⟨rfl, by decide,
      heardInTime_cons_iff.mpr ⟨rfl, Or.inl ⟨none, rfl⟩⟩⟩⟩
  obtain ⟨howned, -, -, hproxy⟩ := owned_of_start (fun _ => false) 10000 sampleChild
  have hstarted := (howned sampleBound).mpr ⟨⟨rfl, rfl, rfl⟩, hannounces, htime⟩
  let stdin : Reader UInt8 := ⟨ProxyCredential.frame sampleToken, [], none⟩
  have hsound : stdin.Sound := List.not_mem_nil
  have htoken : sampleToken.length = 32 := by decide
  obtain ⟨stdin', hread, -, -⟩ :
      ∃ stdin', ProxyAuth.readFrame Base64Bytes.encode stdin =
        (.ok (ProxyAuth.forToken Base64Bytes.encode sampleToken), stdin') ∧ _ :=
    readFrame_of_rest hsound rfl htoken (List.append_nil _).symm
  have hchild : announceBound Base64Bytes.encode stdin sampleBound [] =
      (some (ProxyAuth.forToken Base64Bytes.encode sampleToken), sampleChild.stdout) := by
    rw [announceBound, hread]
    rfl
  exact ⟨hstarted, (hproxy _ stdin _ _ _ _ injective_base64 hchild hstarted).2⟩

end Proxy

end Syndeo
