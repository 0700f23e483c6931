import Muduo.Net.TcpOutput

/-! # One event dispatch

`Channel::handleEventWithGuard` of `muduo/net/Channel.cc` on the channel of a `TcpConnection`. It
looks at four groups of bits in turn, in the mask that the poller has set before the first handler
runs:

* `POLLHUP` without `POLLIN` runs `handleClose`;
* `POLLERR` and `POLLNVAL` run `handleError`;
* `POLLIN`, `POLLPRI` and `POLLRDHUP` run `handleRead`, which runs `handleClose` when it reads
  nothing;
* `POLLOUT` runs `handleWrite`, which asserts that the channel is writing.

`handleClose` turns all events off, but the mask is not looked up again: the groups after it still
run their handlers. `handleEvent_iff` states for which masks, interests and outcomes this goes
well. -/

namespace Muduo

namespace Net

/-- `revents_`. -/
abbrev Revents := BitVec 32

/-- `POLLIN`. -/
def POLLIN : Revents := 0x001

/-- `POLLPRI`. -/
def POLLPRI : Revents := 0x002

/-- `POLLOUT`. -/
def POLLOUT : Revents := 0x004

/-- `POLLERR`. -/
def POLLERR : Revents := 0x008

/-- `POLLHUP`. -/
def POLLHUP : Revents := 0x010

/-- `POLLNVAL`. -/
def POLLNVAL : Revents := 0x020

/-- `POLLRDHUP`. -/
def POLLRDHUP : Revents := 0x2000

/-- `revents_ & mask`, as a condition. -/
def Revents.has (revents : Revents) (mask : Revents) : Bool := revents &&& mask != 0

/-- A handler of the connection that has run. -/
inductive Handler
  | handleRead
  /-- `handleWrite`, and whether the channel was writing then. -/
  | handleWrite (isWriting : Bool)
  | handleClose
  | handleError
deriving DecidableEq, Repr

/-- A connection in the middle of an event dispatch. -/
structure Dispatch where
  /-- The connection. -/
  sender : Sender
  /-- `sockChannel_->isReading()`. -/
  reading : Bool
  /-- The handlers that have run. -/
  handlers : List Handler

/-- What the handlers meet. -/
structure Outcome where
  /-- The result of `readv`. -/
  read : Written
  /-- What `messageCallback_` does with the connection. -/
  message : List Sender.Action
  /-- The result of `write` or `sendfile`. -/
  write : Written

/-- The action is a write event: it comes from a dispatch and not from a callback. -/
def Sender.Action.isHandleWrite : Sender.Action → Bool
  | .handleWrite _ => true
  | _ => false

namespace Dispatch

/-- `handleClose`. -/
def handleClose (d : Dispatch) : Dispatch where
  sender := { d.sender with conn := { d.sender.conn with state := .kDisConnected, writing := false } }
  reading := false
  handlers := d.handlers ++ [.handleClose]

/-- `handleError`. -/
def handleError (d : Dispatch) : Dispatch := { d with handlers := d.handlers ++ [.handleError] }

/-- `messageCallback_` calls functions of the connection, and ends when all of them have
returned. -/
def messageCallback (d : Dispatch) (message : List Sender.Action) : Option Dispatch :=
  if message.any Sender.Action.isHandleWrite then none
  else (Runs.exec Sender.step d.sender message).bind fun s =>
    if s.frames.isEmpty then some { d with sender := s } else none

/-- `handleRead`, where `readv` answers `i.read`: `n` is a `size_t`. -/
def handleRead (d : Dispatch) (i : Outcome) : Option Dispatch :=
  let n := i.read.toSize
  let d : Dispatch := { d with handlers := d.handlers ++ [.handleRead] }
  if n > 0 then d.messageCallback i.message
  else if n = 0 then some d.handleClose
  else some d.handleError

/-- `handleWrite`. Where the channel is not writing, its assertion fails. -/
def handleWrite (d : Dispatch) (r : Written) : Option Dispatch :=
  if d.sender.conn.writing = true then
    (d.sender.step (.handleWrite r)).map fun s =>
      { d with sender := s, handlers := d.handlers ++ [.handleWrite true] }
  else some { d with handlers := d.handlers ++ [.handleWrite false] }

/-- `handleEventWithGuard`. The four callbacks are set by the constructor of `TcpConnection`. -/
def handleEventWithGuard (d : Dispatch) (revents : Revents) (i : Outcome) : Option Dispatch :=
  let d := if revents.has POLLHUP && !revents.has POLLIN then d.handleClose else d
  let d := if revents.has (POLLERR ||| POLLNVAL) then d.handleError else d
  (if revents.has (POLLIN ||| POLLPRI ||| POLLRDHUP) then d.handleRead i else some d).bind fun d =>
    if revents.has POLLOUT then d.handleWrite i.write else some d

end Dispatch

/-- `handleEvent` on a channel whose interest in reading is `reading`. -/
def Sender.handleEvent (s : Sender) (reading : Bool) (revents : Revents) (i : Outcome) :
    Option Dispatch :=
  (⟨s, reading, []⟩ : Dispatch).handleEventWithGuard revents i

/-! ## Which handlers run -/

namespace Dispatch

variable {d d' : Dispatch}

/-- Write interest at the end of `handleRead`, where the callback has run. -/
theorem messageCallback_spec {message : List Sender.Action}
    (h : d.messageCallback message = some d') :
    d'.handlers = d.handlers ∧
      ∃ s, Runs.exec Sender.step d.sender message = some s ∧ d'.sender = s := by
  rw [messageCallback] at h
  split_ifs at h
  obtain ⟨s, hs, h⟩ := Option.bind_eq_some_iff.mp h
  split_ifs at h
  cases h
  exact ⟨rfl, s, hs, rfl⟩

/-- `handleRead` closes the connection if it has read nothing, and else runs the message callback,
also after a failure. -/
theorem handleRead_spec {i : Outcome} (h : d.handleRead i = some d') :
    (i.read.toSize = 0 ∧ d'.handlers = d.handlers ++ [.handleRead, .handleClose]) ∨
      (i.read.toSize ≠ 0 ∧ d'.handlers = d.handlers ++ [.handleRead] ∧
        ∃ s, Runs.exec Sender.step d.sender i.message = some s ∧ d'.sender = s) := by
  rw [handleRead] at h
  by_cases hzero : i.read.toSize = 0
  · -- the peer has closed
    have hnot : ¬ (0 : BitVec 64) > 0 := by decide
    simp only [hzero, hnot, if_false, if_true] at h
    cases h
    exact .inl ⟨hzero, by simp [handleClose]⟩
  · have hpos : i.read.toSize > 0 := (Sender.remain_pos_iff _).mpr (Sender.pos_of_ne_zero hzero)
    simp only [hpos, if_true] at h
    exact .inr ⟨hzero, messageCallback_spec h⟩

theorem handleWrite_spec {r : Written} (h : d.handleWrite r = some d') :
    d'.handlers = d.handlers ++ [.handleWrite d.sender.conn.writing] := by
  rw [handleWrite] at h
  by_cases hw : d.sender.conn.writing = true
  · rw [if_pos hw] at h
    obtain ⟨s, -, rfl⟩ := Option.map_eq_some_iff.mp h
    rw [hw]
  · rw [if_neg hw] at h
    cases h
    rw [Bool.not_eq_true] at hw
    rw [hw]

/-- The group of `POLLHUP` runs `handleClose`. -/
def Closes (revents : Revents) : Bool := revents.has POLLHUP && !revents.has POLLIN

/-- The group of `POLLERR` and `POLLNVAL` runs `handleError`. -/
def Errs (revents : Revents) : Bool := revents.has (POLLERR ||| POLLNVAL)

/-- The group of `POLLIN`, `POLLPRI` and `POLLRDHUP` runs `handleRead`. -/
def Reads (revents : Revents) : Bool := revents.has (POLLIN ||| POLLPRI ||| POLLRDHUP)

/-- The handlers of one dispatch, where write interest is `writing` when `POLLOUT` is looked at. -/
def handled (revents : Revents) (i : Outcome) (writing : Bool) : List Handler :=
  (if Closes revents then [.handleClose] else []) ++ (if Errs revents then [.handleError] else []) ++
  (if Reads revents then
    .handleRead :: if i.read.toSize = 0 then [.handleClose] else [] else []) ++
  (if revents.has POLLOUT then [.handleWrite writing] else [])

/-- The first two groups. -/
def beforeRead (d : Dispatch) (revents : Revents) : Dispatch :=
  let d := if Closes revents then d.handleClose else d
  if Errs revents then d.handleError else d

theorem handleEventWithGuard_eq (d : Dispatch) (revents : Revents) (i : Outcome) :
    d.handleEventWithGuard revents i =
      (if Reads revents then (d.beforeRead revents).handleRead i
        else some (d.beforeRead revents)).bind fun d =>
          if revents.has POLLOUT then d.handleWrite i.write else some d := rfl

theorem beforeRead_handlers (d : Dispatch) (revents : Revents) :
    (d.beforeRead revents).handlers = d.handlers ++
      ((if Closes revents then [.handleClose] else []) ++
        (if Errs revents then [.handleError] else [])) := by
  rw [beforeRead]
  split_ifs <;> simp [handleClose, handleError]

theorem beforeRead_sender (d : Dispatch) {revents : Revents} (h : Closes revents = false) :
    (d.beforeRead revents).sender = d.sender := by
  rw [beforeRead, h]
  split_ifs <;> first | rfl | contradiction

end Dispatch

namespace Sender

open Dispatch

variable {s : Sender} {reading : Bool} {revents : Revents} {i : Outcome} {d : Dispatch}

/-- Write interest when `POLLOUT` is looked at, unless the connection was closed before: that of the
start, or what the message callback has made of it. -/
def StillWriting (s : Sender) (revents : Revents) (i : Outcome) : Prop :=
  if Reads revents then ∃ t ∈ Runs.exec step s i.message, t.conn.writing = true
  else s.conn.writing = true

instance (s : Sender) (revents : Revents) (i : Outcome) : Decidable (s.StillWriting revents i) :=
  inferInstanceAs (Decidable (if Reads revents then ∃ t ∈ Runs.exec step s i.message, _ else _))

/-- The handlers that one dispatch runs. -/
theorem handleEvent_spec (h : s.handleEvent reading revents i = some d) :
    ∃ writing, d.handlers = handled revents i writing ∧
      (Closes revents = false → (Reads revents = true → i.read.toSize ≠ 0) →
        (writing = true ↔ s.StillWriting revents i)) := by
  rw [handleEvent, handleEventWithGuard_eq] at h
  obtain ⟨d₃, h₃, h₄⟩ := Option.bind_eq_some_iff.mp h
  have hbefore := beforeRead_handlers ⟨s, reading, []⟩ revents
  have hsender (hc : Closes revents = false) := beforeRead_sender ⟨s, reading, []⟩ hc
  -- the third group
  have hread : d₃.handlers = ((⟨s, reading, []⟩ : Dispatch).beforeRead revents).handlers ++
      (if Reads revents then
        .handleRead :: if i.read.toSize = 0 then [.handleClose] else [] else []) ∧
      (Closes revents = false → (Reads revents = true → i.read.toSize ≠ 0) →
        (d₃.sender.conn.writing = true ↔ s.StillWriting revents i)) := by
    by_cases hr : Reads revents = true
    · rw [if_pos hr] at h₃
      rw [StillWriting, if_pos hr, if_pos hr]
      rcases handleRead_spec h₃ with ⟨hzero, hhandlers⟩ | ⟨hne, hhandlers, t, ht, hsame⟩
      · rw [if_pos hzero]
        exact ⟨hhandlers, fun _ hne => absurd hzero (hne hr)⟩
      · -- write interest is what the message callback has made of it
        rw [if_neg hne]
        refine ⟨hhandlers, fun hc _ => ?_⟩
        rw [hsender hc] at ht
        rw [hsame]
        exact ⟨fun hw => ⟨t, ht, hw⟩, fun ⟨u, hu, hw⟩ => by cases ht.symm.trans hu; exact hw⟩
    · rw [if_neg hr] at h₃
      cases h₃
      rw [StillWriting, if_neg hr, if_neg hr, List.append_nil]
      exact ⟨rfl, fun hc _ => by rw [hsender hc]⟩
  -- the fourth group
  refine ⟨d₃.sender.conn.writing, ?_, hread.2⟩
  rw [handled, ← List.nil_append (_ ++ _ ++ _ ++ _)]
  by_cases ho : revents.has POLLOUT = true
  · rw [if_pos ho] at h₄
    rw [handleWrite_spec h₄, hread.1, hbefore, if_pos ho]
    simp only [List.nil_append, List.append_assoc]
  · rw [if_neg ho] at h₄
    cases h₄
    rw [hread.1, hbefore, if_neg ho]
    simp only [List.nil_append, List.append_assoc, List.append_nil]

/-! ## When a dispatch is safe -/

/-- What a dispatch promises of the handlers it runs. -/
structure SafeDispatch (handlers : List Handler) : Prop where
  /-- `handleClose` runs at most once. -/
  once : handlers.count .handleClose ≤ 1
  /-- No handler runs after `handleClose`. -/
  last : ∀ done rest, handlers = done ++ .handleClose :: rest → rest = []
  /-- The assertion of `handleWrite` does not fail. -/
  writing : .handleWrite false ∉ handlers

/-- The masks, interests and outcomes for which a dispatch is safe. A hang-up comes alone; after the
peer has closed there is no `POLLOUT`; and else `POLLOUT` comes only while write interest is on. -/
def Harmless (s : Sender) (revents : Revents) (i : Outcome) : Prop :=
  if Closes revents then Errs revents = false ∧ Reads revents = false ∧ revents.has POLLOUT = false
  else if Reads revents = true ∧ i.read.toSize = 0 then revents.has POLLOUT = false
  else revents.has POLLOUT = true → s.StillWriting revents i

instance (s : Sender) (revents : Revents) (i : Outcome) : Decidable (s.Harmless revents i) :=
  inferInstanceAs (Decidable (if Closes revents then _ ∧ _ ∧ _
    else if Reads revents = true ∧ i.read.toSize = 0 then _ else _ → _))

theorem safeDispatch_iff {handlers : List Handler} : SafeDispatch handlers ↔
    handlers.count .handleClose ≤ 1 ∧ .handleClose ∉ handlers.dropLast ∧
      .handleWrite false ∉ handlers := by
  refine ⟨fun ⟨h1, h2, h3⟩ => ⟨h1, fun hmem => ?_, h3⟩, fun ⟨h1, h2, h3⟩ => ⟨h1, ?_, h3⟩⟩
  · obtain ⟨done, rest, hsplit⟩ := List.append_of_mem hmem
    have hne : handlers ≠ [] := by
      rintro rfl
      cases hmem
    have hall := List.dropLast_append_getLast hne
    rw [hsplit, List.append_assoc, List.cons_append] at hall
    have hnil := h2 done _ hall.symm
    simp at hnil
  · rintro done rest rfl
    by_contra hne
    rw [List.dropLast_append_of_ne_nil (List.cons_ne_nil _ _),
      List.dropLast_cons_of_ne_nil hne] at h2
    simp at h2

/-- **When one dispatch is safe.** For every mask, every interest and every outcome, `handleEvent`
runs `handleClose` at most once and no handler after it, and never `handleWrite` with write interest
off, if and only if the dispatch is harmless. -/
theorem handleEvent_iff (h : s.handleEvent reading revents i = some d) :
    SafeDispatch d.handlers ↔ s.Harmless revents i := by
  obtain ⟨writing, hhandlers, hwriting⟩ := handleEvent_spec h
  rw [safeDispatch_iff, hhandlers, handled, Harmless]
  cases hc : Closes revents with
  | true =>
    -- `handleClose` runs first, so nothing may follow
    simp only [if_true]
    cases Errs revents <;> cases Reads revents <;> cases revents.has POLLOUT <;>
      by_cases hz : i.read.toSize = 0 <;> simp [hz]
  | false =>
    by_cases hz : Reads revents = true ∧ i.read.toSize = 0
    · -- `handleRead` runs `handleClose`, so `handleWrite` may not follow
      simp only [hz, if_true, and_self, Bool.false_eq_true, if_false]
      cases Errs revents <;> cases revents.has POLLOUT <;> simp
    · -- nothing runs `handleClose`
      rw [if_neg hz, ← hwriting hc fun hr h0 => hz ⟨hr, h0⟩]
      cases hr : Reads revents with
      | true =>
        have hne : ¬ i.read.toSize = 0 := fun h0 => hz ⟨hr, h0⟩
        simp only [hne, if_true, if_false, Bool.false_eq_true]
        cases Errs revents <;> cases revents.has POLLOUT <;> cases writing <;> simp
      | false =>
        simp only [Bool.false_eq_true, if_false]
        cases Errs revents <;> cases revents.has POLLOUT <;> cases writing <;> simp

/-- The theorem at work: a message comes together with room in the socket, and the callback
answers. -/
theorem handleEvent_iff_answer : ∃ d,
    (established false).handleEvent true (POLLIN ||| POLLOUT)
      ⟨.count 3, [.send abcde (.count 2)], .count 3⟩ = some d ∧ SafeDispatch d.handlers := by
  have hsome : ((established false).handleEvent true (POLLIN ||| POLLOUT)
      ⟨.count 3, [.send abcde (.count 2)], .count 3⟩).isSome = true := by decide +kernel
  obtain ⟨d, hd⟩ := Option.isSome_iff_exists.mp hsome
  exact ⟨d, hd, (handleEvent_iff hd).mpr (by decide +kernel)⟩

/-- **FIN together with writability**, while bytes are waiting: `handleRead` reads nothing and runs
`handleClose`, and then `handleWrite` runs with write interest off. -/
theorem not_handleEvent : ∃ s d,
    Runs.exec step (established false) [.send abcde (.count 2)] = some s ∧ s.conn.writing = true ∧
      s.handleEvent true (POLLIN ||| POLLOUT ||| POLLRDHUP) ⟨.count 0, [], .count 3⟩ = some d ∧
      ¬ SafeDispatch d.handlers := by
  have hrun : ((Runs.exec step (established false) [.send abcde (.count 2)]).bind fun s =>
      (s.handleEvent true (POLLIN ||| POLLOUT ||| POLLRDHUP) ⟨.count 0, [], .count 3⟩).map fun d =>
        (s.conn.writing, d.handlers)) =
      some (true, [.handleRead, .handleClose, .handleWrite false]) := by decide +kernel
  obtain ⟨s, hs, hrun⟩ := Option.bind_eq_some_iff.mp hrun
  obtain ⟨d, hd, hobs⟩ := Option.map_eq_some_iff.mp hrun
  obtain ⟨hwriting, hhandlers⟩ := Prod.mk.inj hobs
  refine ⟨s, d, hs, hwriting, hd, fun hsafe => hsafe.writing ?_⟩
  rw [hhandlers]
  decide

end Sender

end Net

end Muduo
